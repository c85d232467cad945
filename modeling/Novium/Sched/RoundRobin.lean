import Novium.Lib.Rotation
import Novium.Sched.Walk

/-! Round robin. Between two calls the running task and the ready queue are a
`Rotation` keyed by the task ids, and `SchedYield` is one turn of it, so nobody
starves. The turns follow increasing ids only where the queue is in that order. -/

namespace Novium.Sched

open Novium.Lib

theorem findAfter_find? {s : State} (id : ℕ) {l : List TaskRef} {cur : Option TaskRef} {n : ℕ}
    (hl : Linked s.next cur l) (hn : l.length < n) :
    findAfter s id n cur = some ((l.find? fun t => id < s.id t).or s.readyQueue) := by
  induction l generalizing cur n with
  | nil =>
    obtain ⟨m, rfl⟩ : ∃ m, n = m + 1 := ⟨n - 1, by simp at hn; omega⟩
    rw [linked_nil.mp hl]
    rfl
  | cons a l ih =>
    obtain ⟨rfl, hr⟩ := hl
    obtain ⟨m, rfl⟩ : ∃ m, n = m + 1 := ⟨n - 1, by omega⟩
    rw [findAfter, List.find?_cons]
    by_cases hid : s.id a > id
    · simp [hid]
    · rw [if_neg hid, ih hr (by simpa using hn)]
      simp [hid]

theorem schedFindRoundRobin_pick {s : State} {r : Rotation TaskRef} (hl : Linked s.next s.readyQueue r.queue)
    (hc : s.currentTask = some r.holder) : schedFindRoundRobin s = some (r.pick s.id) := by
  have hn := Nat.lt_succ_of_le (linked_length_le hl)
  have hhead : s.readyQueue = r.queue.head? := by
    cases hq : r.queue with
    | nil => rw [hq] at hl; exact hl
    | cons a l => rw [hq] at hl; exact hl.1
  simp only [schedFindRoundRobin, hc]
  rw [findAfter_find? _ hl hn, hhead]
  rfl

theorem schedSwitch_policy (prev : Option TaskRef) (frames : List Frame) (nxt : TaskRef) (s : State) :
    (schedSwitch prev frames nxt s).currentPolicy = s.currentPolicy := by
  cases prev <;> rfl

theorem switchTo_ready {s : State} {l : List TaskRef} {c nxt : TaskRef} (frames : List Frame)
    (hl : Linked s.next s.readyQueue l) (hn : nxt ∈ l) (hc : s.currentTask = some c)
    (hrun : s.state c = .running) (hcl : c ∉ l) :
    ∃ s', switchTo frames nxt s = some s' ∧ Linked s'.next s'.readyQueue (l.erase nxt ++ [c]) ∧
      s'.currentTask = some nxt ∧ s'.state nxt = .running ∧ s'.id = s.id ∧
      s'.currentPolicy = s.currentPolicy ∧ s'.schedulerLocked = s.schedulerLocked := by
  obtain ⟨nx, hd, h1, hl1, -, -⟩ := schedQueueRemove_erase (q := .ready) hl hn
  have hnext : ((s.setLinks nx hd).setState c .ready).next = nx :=
    (s.setLinks nx hd).modTask_field c (fun item => { item with state := .ready }) (·.next) fun _ => rfl
  have hid : ((s.setLinks nx hd).setState c .ready).id = s.id :=
    (s.setLinks nx hd).modTask_field c (fun item => { item with state := .ready }) (·.id) fun _ => rfl
  have hl2 : Linked ((s.setLinks nx hd).setState c .ready).next
      (((s.setLinks nx hd).setState c .ready).head .ready) (l.erase nxt) := by
    rw [hnext]
    exact hl1
  obtain ⟨nx', hd', h2, hl3, -, -⟩ :=
    schedQueueAdd_append (q := .ready) (t := c) hl2 fun h => hcl (List.mem_of_mem_erase h)
  have hreq : requeue s.currentTask (s.setLinks nx hd) =
      some (((s.setLinks nx hd).setState c .ready).setLinks nx' hd') := by
    rw [hc, requeue, if_pos (show (s.setLinks nx hd).state c = .running from hrun)]
    exact h2
  set s₂ := ((s.setLinks nx hd).setState c .ready).setLinks nx' hd' with hs₂
  obtain ⟨k1, k2, k3, k4, k5, k6⟩ := schedSwitch_keeps s.currentTask frames nxt (makeCurrent nxt s₂)
  refine ⟨schedSwitch s.currentTask frames nxt (makeCurrent nxt s₂), ?_, ?_, k5, ?_, ?_, ?_, k6⟩
  · unfold switchTo
    simp only [h1, hreq, Option.bind_eq_bind, Option.bind_some]
  · have hready := congrFun (State.head_congr k2) .ready
    have hkeep : (makeCurrent nxt s₂).next = nx' := s₂.modTask_field nxt elected (·.next) fun _ => rfl
    rw [k1, hkeep, show State.readyQueue _ = State.head _ .ready from rfl, hready]
    exact hl3
  · rw [k3, makeCurrent_state, if_pos rfl]
  · rw [k4, makeCurrent_id, ← hid]
    rfl
  · exact schedSwitch_policy _ _ _ _

/-- The running task and the tasks queued behind it, under round robin and unlocked. -/
structure Rota (s : State) (r : Rotation TaskRef) : Prop where
  currentTask : s.currentTask = some r.holder
  running : s.state r.holder = .running
  ready : Linked s.next s.readyQueue r.queue
  apart : r.holder ∉ r.queue
  policy : s.currentPolicy = .roundRobin
  unlocked : s.schedulerLocked = 0

theorem Partition.rota {s : State} (h : Partition s) (hp : s.currentPolicy = .roundRobin)
    (hl : s.schedulerLocked = 0) : ∃ r, Rota s r ∧ (∀ t, s.OnQueue .ready t → t ∈ r.queue) ∧
      ∀ t, t ∈ r.queue ↔ s.state t = .ready := by
  obtain ⟨L, hc, -, hr, -, -, hoff⟩ := h.queues
  obtain ⟨c, hcur, hrun⟩ := h.current
  refine ⟨⟨c, L .ready⟩, ⟨hcur, (hrun c).mpr rfl, hc .ready, hoff c hcur .ready, hp, hl⟩, fun t => ?_, hr⟩
  exact (hc.onQueue_iff .ready t).mp

theorem Rota.schedYield {s : State} {r : Rotation TaskRef} (h : Rota s r) :
    ∃ s', schedYield s = some s' ∧ Rota s' (r.turn s.id) ∧ s'.id = s.id := by
  have hfind : schedFindNext (schedLockIrq s) = some (r.pick s.id) := by
    rw [schedFindNext, show (schedLockIrq s).currentPolicy = .roundRobin from h.policy]
    exact schedFindRoundRobin_pick (s := schedLockIrq s) h.ready h.currentTask
  have hlock : ¬ (schedLockIrq s).schedulerLocked ≠ 0 := not_not.mpr h.unlocked
  simp only [Sched.schedYield, schedYieldIn, if_neg hlock, hfind, Option.bind_eq_bind, Option.bind_some]
  cases hpick : r.pick s.id with
  | none =>
    refine ⟨s, by simp [resume], ?_, rfl⟩
    rwa [Rotation.turn, hpick]
  | some x =>
    have hx := Rotation.pick_mem hpick
    have hne : ¬ (schedLockIrq s).currentTask = some x := by
      rw [show (schedLockIrq s).currentTask = some r.holder from h.currentTask]
      rintro ⟨⟩
      exact h.apart hx
    obtain ⟨s', hs', hl', hc', hrun', hid', hp', hu'⟩ := switchTo_ready (s := schedLockIrq s)
      [.yield s.irqsEnabled] h.ready hx h.currentTask h.running h.apart
    simp only [if_neg hne]
    refine ⟨s', hs', ?_, hid'⟩
    rw [Rotation.turn_eq hpick]
    refine ⟨hc', hrun', hl', fun hin => ?_, hp'.trans h.policy, hu'.trans h.unlocked⟩
    rcases List.mem_append.mp hin with hin | hin
    · exact h.ready.nodup.not_mem_erase hin
    · exact hne (h.currentTask.trans (congrArg some (List.mem_singleton.mp hin).symm))

/-- `SchedYield` called `n` times with nothing in between. -/
def schedYields : ℕ → State → Option State
  | 0, s => some s
  | n + 1, s => (schedYield s).bind (schedYields n)

theorem Rota.schedYields {s : State} {r : Rotation TaskRef} (h : Rota s r) (n : ℕ) :
    ∃ s', schedYields n s = some s' ∧ Rota s' ((Rotation.turn s.id)^[n] r) := by
  induction n generalizing s r with
  | zero => exact ⟨s, rfl, h⟩
  | succ n ih =>
    obtain ⟨s₁, h1, hr, hid⟩ := h.schedYield
    obtain ⟨s', h2, hr'⟩ := ih hr
    refine ⟨s', by rw [Sched.schedYields, h1]; exact h2, ?_⟩
    rwa [hid, ← Function.iterate_succ_apply] at hr'

/-- The tasks that are ready or running. -/
def runnable (s : State) : Finset TaskRef :=
  Finset.univ.filter fun t => s.state t = .ready ∨ s.state t = .running

theorem Partition.card_runnable {s : State} {r : Rotation TaskRef} (h : Partition s) (hr : Rota s r)
    (hq : ∀ t, t ∈ r.queue ↔ s.state t = .ready) : (runnable s).card = r.queue.length + 1 := by
  obtain ⟨c, hc, hrun⟩ := h.current
  have hcr : c = r.holder := Option.some.inj (hc.symm.trans hr.currentTask)
  have heq : runnable s = insert r.holder r.queue.toFinset := by
    ext t
    rw [runnable, Finset.mem_filter, Finset.mem_insert, List.mem_toFinset, hq, hrun, hcr]
    simp [or_comm]
  rw [heq, Finset.card_insert_of_notMem (by simpa using hr.apart), List.toFinset_card_of_nodup hr.ready.nodup]

/-- With `n` tasks ready or running, a task on the ready queue is the current one
after at most `n * n` yields, whatever the order of the queue and of the ids. -/
theorem round_robin_reaches {s : State} (h : Partition s) (hp : s.currentPolicy = .roundRobin)
    (hl : s.schedulerLocked = 0) {t : TaskRef} (ht : s.OnQueue .ready t) :
    ∃ k ≤ (runnable s).card * (runnable s).card, ∃ s', schedYields k s = some s' ∧ s'.currentTask = some t := by
  obtain ⟨r, hr, hmem, hq⟩ := h.rota hp hl
  obtain ⟨k, hk, hholder⟩ := Rotation.exists_turn s.id (hmem t ht)
  obtain ⟨s', hs', hr'⟩ := hr.schedYields k
  rw [h.card_runnable hr hq]
  exact ⟨k, hk, s', hs', hholder ▸ hr'.currentTask⟩

/-- Task 2 blocked and woken while task 1 runs: it stands behind task 3 and the idle
task, which both run before it. -/
def overtaken : List Event :=
  [createTask, createTask, createTask, .yield, .blockTask 2, .wakeTask 2].map .call

theorem round_robin_reaches_overtaken :
    ∃ s, Partition s ∧ s.currentTask = some 1 ∧ s.readyQueue = some 3 ∧
      ∃ k ≤ (runnable s).card * (runnable s).card, ∃ s', schedYields k s = some s' ∧ s'.currentTask = some 2 := by
  obtain ⟨s, -, hs, hp⟩ := System.exists_reachableIf LeavesUnlocked system_init overtaken
    (fun s => s.currentTask = some 1 ∧ s.readyQueue = some 3 ∧ s.next 3 = some 0 ∧ s.next 0 = some 2 ∧
      s.currentPolicy = .roundRobin ∧ s.schedulerLocked = 0) (by decide +kernel)
  obtain ⟨h1, h2, h3, h4, h5, h6⟩ := of_decide_eq_true hp
  have hpart := (reachable_inv hs).partition
  exact ⟨s, hpart, h1, h2, round_robin_reaches hpart h5 h6 ⟨[3, 0], h2, h3, h4⟩⟩

/-- A ready task with the least id above that of `c`. -/
structure LeastAbove (s : State) (c t : TaskRef) : Prop where
  ready : s.OnQueue .ready t
  above : s.id c < s.id t
  least : ∀ u, s.OnQueue .ready u → s.id c < s.id u → s.id t ≤ s.id u

/-- The walk along the ready queue meets a task with the least id above that of `c`
before any other task with an id above it. -/
def LeastFirst (s : State) (c : TaskRef) : Prop :=
  ∃ l t, Along s.next s.readyQueue l (some t) ∧ (∀ a ∈ l, s.id a ≤ s.id c) ∧ LeastAbove s c t

section

variable {s s' : State} {id n : ℕ} {cur r : Option TaskRef}

theorem findAfter_first {l : List TaskRef} {t : TaskRef} (h : findAfter s id n cur = some r)
    (hl : Along s.next cur l (some t)) (hle : ∀ a ∈ l, s.id a ≤ id) (ht : id < s.id t) : r = some t := by
  induction n generalizing cur l with
  | zero => cases h
  | succ n ih =>
    cases l with
    | nil =>
      obtain rfl : cur = some t := hl
      rw [findAfter, if_pos ht] at h
      exact (Option.some.inj h).symm
    | cons a l =>
      obtain ⟨rfl, hr⟩ := hl
      rw [findAfter, if_neg (not_lt.mpr (hle a (by simp)))] at h
      exact ih h hr fun b hb => hle b (by simp [hb])

theorem exists_first {l : List TaskRef} {u : TaskRef} (hl : Along s.next cur l (some u)) (hu : id < s.id u) :
    ∃ m t, Along s.next cur m (some t) ∧ (∀ a ∈ m, s.id a ≤ id) ∧ id < s.id t := by
  induction l generalizing cur with
  | nil => exact ⟨[], u, hl, by simp, hu⟩
  | cons a l ih =>
    obtain ⟨rfl, hr⟩ := hl
    by_cases ha : id < s.id a
    · exact ⟨[], a, rfl, by simp, ha⟩
    · obtain ⟨m, t, hm, hle, ht⟩ := ih hr
      refine ⟨a :: m, t, ⟨rfl, hm⟩, fun b hb => ?_, ht⟩
      rcases List.mem_cons.mp hb with rfl | hb
      · exact not_lt.mp ha
      · exact hle b hb

theorem schedYield_first {l : List TaskRef} {c t : TaskRef} (hp : s.currentPolicy = .roundRobin)
    (hk : s.schedulerLocked = 0) (hc : s.currentTask = some c) (hl : Along s.next s.readyQueue l (some t))
    (hle : ∀ a ∈ l, s.id a ≤ s.id c) (ht : s.id c < s.id t) (h : schedYield s = some s') :
    s'.currentTask = some t := by
  unfold schedYield schedYieldIn at h
  simp only at h
  rw [if_neg (show ¬ (schedLockIrq s).schedulerLocked ≠ 0 from not_not.mpr hk)] at h
  simp only [Option.bind_eq_bind, Option.bind_eq_some_iff] at h
  obtain ⟨r, hfind, h⟩ := h
  rw [schedFindNext, show (schedLockIrq s).currentPolicy = .roundRobin from hp] at hfind
  simp only [schedFindRoundRobin, show (schedLockIrq s).currentTask = some c from hc] at hfind
  obtain rfl : r = some t := findAfter_first hfind hl hle ht
  have hne : ¬ (schedLockIrq s).currentTask = some t := by
    intro e
    rw [Option.some.inj (hc.symm.trans e)] at ht
    exact lt_irrefl _ ht
  simp only [if_neg hne] at h
  exact (switchTo_switchedTo h).currentTask

end

/-- Where some ready task has a larger id than the current one, the yield goes to one
with the least such id exactly when the ready queue has that one before all others
with larger ids. The state is any in which the yield returns, which it does in every
run in which nobody leaves under the lock. -/
theorem round_robin_least_iff {s : State} {c u : TaskRef} (hp : s.currentPolicy = .roundRobin)
    (hk : s.schedulerLocked = 0) (hc : s.currentTask = some c) (hu : s.OnQueue .ready u) (hid : s.id c < s.id u) :
    (∀ s', schedYield s = some s' → ((∃ t, s'.currentTask = some t ∧ LeastAbove s c t) ↔ LeastFirst s c)) ∧
      (system.ReachableIf LeavesUnlocked s → ∃ s', schedYield s = some s') := by
  refine ⟨fun s' h => ⟨?_, ?_⟩, fun hr => ?_⟩
  · rintro ⟨t, ht, hleast⟩
    obtain ⟨l, hl⟩ := hu
    obtain ⟨m, t', hm, hle, ht'⟩ := exists_first hl hid
    have hcur := schedYield_first hp hk hc hm hle ht' h
    obtain rfl := Option.some.inj (hcur.symm.trans ht)
    exact ⟨m, t', hm, hle, hleast⟩
  · rintro ⟨l, t, hl, hle, hleast⟩
    exact ⟨t, schedYield_first hp hk hc hl hle hleast.above h, hleast⟩
  · obtain ⟨s', h, -⟩ := call_inv (reachable_inv hr) .yield fun _ => hk
    exact ⟨s', h⟩

/-- Without wakeups the queue is in the order of the ids. -/
theorem round_robin_least_created :
    ∃ s s', system.ReachableIf LeavesUnlocked s ∧ s.currentTask = some 1 ∧ schedYield s = some s' ∧
      ∃ t, s'.currentTask = some t ∧ LeastAbove s 1 t := by
  obtain ⟨s, -, hs, hp⟩ := System.exists_reachableIf LeavesUnlocked system_init
    ([createTask, createTask, createTask, .yield].map .call)
    (fun s => s.currentTask = some 1 ∧ s.readyQueue = some 2 ∧ s.id 1 = 1 ∧ s.id 2 = 2 ∧
      s.currentPolicy = .roundRobin ∧ s.schedulerLocked = 0) (by decide +kernel)
  obtain ⟨h1, h2, h3, h4, h5, h6⟩ := of_decide_eq_true hp
  have hon : s.OnQueue .ready 2 := ⟨[], h2⟩
  obtain ⟨hiff, hret⟩ := round_robin_least_iff h5 h6 h1 hon (by omega)
  obtain ⟨s', h⟩ := hret hs
  exact ⟨s, s', hs, h1, h, (hiff s' h).mpr ⟨[], 2, h2, by simp, hon, by omega, fun u _ hu => by omega⟩⟩

/-- Task 1 yields to task 3 although the woken task 2 is ready. -/
theorem round_robin_not_least :
    ¬ ∀ s s' c u, system.Reachable s → s.currentPolicy = .roundRobin → s.schedulerLocked = 0 →
      s.currentTask = some c → s.OnQueue .ready u → s.id c < s.id u → schedYield s = some s' →
      ∃ t, s'.currentTask = some t ∧ LeastAbove s c t := by
  intro hall
  obtain ⟨s, -, hs, hp⟩ := System.exists_reachableIf (fun _ _ => True) system_init overtaken
    (fun s => s.currentTask = some 1 ∧ s.readyQueue = some 3 ∧ s.next 3 = some 0 ∧ s.next 0 = some 2 ∧
      s.id 1 = 1 ∧ s.id 2 = 2 ∧ s.id 3 = 3 ∧ s.currentPolicy = .roundRobin ∧ s.schedulerLocked = 0 ∧
      (schedYield s).any fun s' => s'.currentTask = some 3) (by decide +kernel)
  obtain ⟨h1, h2, h3, h4, i1, i2, i3, h5, h6, h7⟩ := of_decide_eq_true hp
  obtain ⟨s', hrun, h8⟩ := (Option.any_eq_true _ _).mp h7
  have hon : s.OnQueue .ready 2 := ⟨[3, 0], h2, h3, h4⟩
  obtain ⟨t, ht, hleast⟩ := hall s s' 1 2 hs h5 h6 h1 hon (by omega) hrun
  rw [of_decide_eq_true h8] at ht
  have hle := hleast.least 2 hon (by omega)
  rw [← Option.some.inj ht] at hle
  omega

end Novium.Sched
