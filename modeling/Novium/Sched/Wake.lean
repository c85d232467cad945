import Novium.Sched.Runs

/-! `SchedWakeExpired` node by node. It takes the sleepers whose time has come off the
list that it walks and links them, through the same field, to the end of another; the
nodes that it has still to visit are not among those it has moved. -/

namespace Novium.Sched

open Novium.Lib

def State.due (s : State) (nowTick : ℕ) (t : TaskRef) : Bool := expired nowTick (s.tasks t)

def awake (item : Task) : Task := { item with state := .ready, wakeTick := 0 }

/-- The tasks `ts` have been moved from the blocked queue, of which `kept` is left, to the end of the ready queue.
Nothing else has changed. -/
structure Woken (s : State) (L : Queue → List TaskRef) (kept ts : List TaskRef) (s' : State) : Prop where
  blocked : Linked s'.next s'.blockedQueue kept
  ready : Linked s'.next s'.readyQueue (L .ready ++ ts)
  next : ∀ t, t ∉ L .ready → t ∉ L .blocked → s'.next t = s.next t
  tasks : ∀ t, s'.tasks t = { if t ∈ ts then awake (s.tasks t) else s.tasks t with next := s'.next t }
  rest : s' = { s with tasks := s'.tasks, readyQueue := s'.readyQueue, blockedQueue := s'.blockedQueue }

theorem Woken.refl {s : State} {L : Queue → List TaskRef} (hc : Chains s L) : Woken s L (L .blocked) [] s where
  blocked := hc .blocked
  ready := by rw [List.append_nil]; exact hc .ready
  next _ _ _ := rfl
  tasks _ := rfl
  rest := rfl

theorem setState_setLinks (s : State) (nx : TaskRef → Option TaskRef) (hd : Queue → Option TaskRef) (t : TaskRef)
    (st : TaskState) : (s.setLinks nx hd).setState t st = (s.setState t st).setLinks nx hd := by
  unfold State.setState State.modTask State.setLinks
  congr 1
  funext u
  rcases eq_or_ne u t with rfl | hu
  · simp
  · simp [Function.update_of_ne hu]

theorem move_links {s : State} {B R : List TaskRef} {t : TaskRef} (hb : Linked s.next (s.head .blocked) B)
    (hr : Linked s.next (s.head .ready) R) (hdisj : B.Disjoint R) (ht : t ∈ B) :
    ∃ s₁ nx hd, schedQueueRemove .blocked t s = some s₁ ∧
      schedQueueAdd .ready t (s₁.setState t .ready) = some ((s.setState t .ready).setLinks nx hd) ∧
      Linked nx (hd .blocked) (B.erase t) ∧ Linked nx (hd .ready) (R ++ [t]) ∧ hd .dead = s.head .dead ∧
      ∀ u ∉ B, u ∉ R → nx u = s.next u := by
  obtain ⟨nx₁, hd₁, hrem, hb₁, hnx₁, hhd₁⟩ := schedQueueRemove_erase hb ht
  have hr₁ : Linked nx₁ (hd₁ .ready) R := by
    rw [hhd₁ .ready (by decide)]
    exact hr.congr fun a ha => hnx₁ a fun hin => hdisj hin ha
  have hr₂ : Linked ((s.setState t .ready).setLinks nx₁ hd₁).next
      (((s.setState t .ready).setLinks nx₁ hd₁).head .ready) R := by
    rw [State.setLinks_next, State.setLinks_head]
    exact hr₁
  obtain ⟨nx, hd, hadd, hr', hnx, hhd⟩ := schedQueueAdd_append hr₂ (hdisj ht)
  rw [State.setLinks_setLinks] at hadd
  rw [State.setLinks_next] at hnx
  rw [State.setLinks_head] at hhd
  refine ⟨s.setLinks nx₁ hd₁, nx, hd, hrem, by rw [setState_setLinks]; exact hadd, ?_, hr', ?_, fun u hu hur => ?_⟩
  · rw [hhd .blocked (by decide)]
    refine hb₁.congr fun a ha => hnx a (hdisj (List.mem_of_mem_erase ha)) ?_
    rintro rfl
    exact hb.nodup.not_mem_erase ha
  · rw [hhd .dead (by decide), hhd₁ .dead (by decide)]
  · rw [hnx u hur fun e => hu (e ▸ ht), hnx₁ u hu]

theorem wakeOne_links {s : State} {B R : List TaskRef} {t : TaskRef} (hb : Linked s.next (s.head .blocked) B)
    (hr : Linked s.next (s.head .ready) R) (hdisj : B.Disjoint R) (ht : t ∈ B) :
    ∃ nx hd, wakeOne t s = some ((s.modTask t awake).setLinks nx hd) ∧ Linked nx (hd .blocked) (B.erase t) ∧
      Linked nx (hd .ready) (R ++ [t]) ∧ hd .dead = s.head .dead ∧ ∀ u ∉ B, u ∉ R → nx u = s.next u := by
  have hnext : (s.modTask t fun item => { item with wakeTick := 0 }).next = s.next :=
    s.modTask_field t (fun item => { item with wakeTick := 0 }) (·.next) fun _ => rfl
  have hboth : (s.modTask t fun item => { item with wakeTick := 0 }).setState t .ready = s.modTask t awake := by
    simp [State.setState, State.modTask, awake]
  obtain ⟨s₁, nx, hd, hrem, hadd, hb', hr', hdead, hnx⟩ := move_links
    (s := s.modTask t fun item => { item with wakeTick := 0 }) (by rw [hnext, State.modTask_head]; exact hb)
    (by rw [hnext, State.modTask_head]; exact hr) hdisj ht
  rw [hboth] at hadd
  rw [State.modTask_head] at hdead
  rw [hnext] at hnx
  refine ⟨nx, hd, ?_, hb', hr', hdead, hnx⟩
  unfold wakeOne
  simp only [hrem, Option.bind_eq_bind, Option.bind_some, hadd]

theorem Woken.step {s s₁ : State} {L : Queue → List TaskRef} {kept ts : List TaskRef} {t : TaskRef}
    (h : Woken s L kept ts s₁) (hperm : (kept ++ ts).Perm (L .blocked)) (hnd : (L .blocked ++ L .ready).Nodup)
    (ht : t ∈ kept) : ∃ s₂, wakeOne t s₁ = some s₂ ∧ Woken s L (kept.erase t) (ts ++ [t]) s₂ := by
  have hmem : ∀ u, u ∈ kept ∨ u ∈ ts ↔ u ∈ L .blocked := fun u => by rw [← List.mem_append, hperm.mem_iff]
  have hsplit : kept.Disjoint ts := List.disjoint_of_nodup_append (hperm.nodup_iff.mpr hnd.of_append_left)
  have hdisj : kept.Disjoint (L .ready ++ ts) := by
    rw [List.disjoint_append_right]
    exact ⟨fun u hu => List.disjoint_of_nodup_append hnd ((hmem u).mp (.inl hu)), hsplit⟩
  obtain ⟨nx, hd, hrun, hb, hr, hdead, hnx⟩ := wakeOne_links (s := s₁) h.blocked h.ready hdisj ht
  refine ⟨_, hrun, hb, by rw [← List.append_assoc]; exact hr, fun u hu hub => ?_, fun u => ?_, ?_⟩
  · have hk : u ∉ kept := fun hin => hub ((hmem u).mp (.inl hin))
    have hts : u ∉ ts := fun hin => hub ((hmem u).mp (.inr hin))
    exact (hnx u hk (by simp [hu, hts])).trans (h.next u hu hub)
  · have htask := h.tasks u
    rcases eq_or_ne u t with rfl | hut
    · rw [if_neg (hsplit ht)] at htask
      have hself : ((s₁.modTask u awake).setLinks nx hd).tasks u = { awake (s₁.tasks u) with next := nx u } := by
        simp [State.setLinks, State.modTask]
      rw [hself, htask, if_pos (by simp)]
      rfl
    · have hin : u ∈ ts ++ [t] ↔ u ∈ ts := by simp [hut]
      rw [if_congr hin rfl rfl]
      have hkeep : ((s₁.modTask t awake).setLinks nx hd).tasks u = { s₁.tasks u with next := nx u } := by
        simp [State.setLinks, State.modTask, hut]
      rw [hkeep, htask]
      rfl
  · have hsame : s₁.deadQueue = s.deadQueue := by rw [h.rest]
    have hdead' : hd .dead = s.deadQueue := hdead.trans hsame
    unfold State.setLinks State.modTask
    rw [hdead', h.rest]

/-- The loop at the nodes `l` of the blocked queue, with `pre` passed over and `ts` moved already. -/
theorem wakeLoop_exact (nowTick : ℕ) {s : State} {L : Queue → List TaskRef} (hnd : (L .blocked ++ L .ready).Nodup)
    {pre l ts : List TaskRef} {n : ℕ} {s₁ : State} (h : Woken s L (pre ++ l) ts s₁)
    (hperm : (pre ++ l ++ ts).Perm (L .blocked)) (hn : l.length < n) :
    ∃ s', wakeLoop nowTick n l.head? ts.length s₁ =
        some (s', (ts ++ l.filter (s.due nowTick)).length) ∧
      Woken s L (pre ++ l.filter (!s.due nowTick ·))
        (ts ++ l.filter (s.due nowTick)) s' := by
  induction l generalizing pre ts n s₁ with
  | nil =>
    obtain ⟨m, rfl⟩ : ∃ m, n = m + 1 := ⟨n - 1, by simp at hn; omega⟩
    refine ⟨s₁, ?_, ?_⟩
    · simp [wakeLoop]
    · simpa using h
  | cons t l ih =>
    obtain ⟨m, rfl⟩ : ∃ m, n = m + 1 := ⟨n - 1, by omega⟩
    have hm : l.length < m := by simpa using hn
    have hnext : s₁.next t = l.head? := linked_next_eq_head? h.blocked
    have hkept : (pre ++ t :: l ++ ts).Nodup := hperm.nodup_iff.mpr hnd.of_append_left
    -- the node still has the `WakeTick` that it had at the start
    have htime : expired nowTick (s₁.tasks t) = s.due nowTick t := by
      have hts : t ∉ ts := List.disjoint_of_nodup_append hkept (by simp)
      rw [h.tasks t, if_neg hts]
      rfl
    rw [List.head?_cons, wakeLoop]
    simp only [hnext, htime]
    by_cases hexp : s.due nowTick t = true
    · obtain ⟨s₂, hrun, h₂⟩ := h.step hperm hnd (t := t) (by simp)
      have herase : (pre ++ t :: l).erase t = pre ++ l := by
        have hpre : t ∉ pre := fun hin => List.disjoint_of_nodup_append hkept.of_append_left hin (by simp)
        rw [List.erase_append_right _ hpre, List.erase_cons_head]
      rw [herase] at h₂
      have hcount : u32 (ts.length + 1) = (ts ++ [t]).length := by
        have hlen := linked_length_le h₂.ready
        rw [u32_of_lt] <;> simp [schedMaxTasks] at hlen ⊢
        omega
      have hperm₂ : (pre ++ l ++ (ts ++ [t])).Perm (L .blocked) := by
        refine List.Perm.trans ?_ hperm
        simp only [List.append_assoc, List.cons_append]
        refine List.Perm.append_left pre ?_
        rw [← List.append_assoc]
        exact List.perm_append_singleton t (l ++ ts)
      obtain ⟨s', hloop, h'⟩ := ih h₂ hperm₂ hm
      refine ⟨s', ?_, ?_⟩
      · rw [if_pos hexp, hrun, Option.bind_eq_bind, Option.bind_some, hcount, hloop, List.filter_cons_of_pos hexp]
        simp
      · rw [List.filter_cons_of_pos hexp, List.filter_cons_of_neg (by simp [hexp])]
        simpa using h'
    · have h₂ : Woken s L (pre ++ [t] ++ l) ts s₁ := by simpa using h
      obtain ⟨s', hloop, h'⟩ := ih h₂ (by simpa using hperm) hm
      refine ⟨s', ?_, ?_⟩
      · rw [if_neg hexp, hloop, List.filter_cons_of_neg hexp]
      · rw [List.filter_cons_of_neg hexp, List.filter_cons_of_pos (by simp [hexp])]
        simpa using h'

theorem Partition.nodup {s : State} (hp : Partition s) {L : Queue → List TaskRef} (hc : Chains s L) :
    (L .blocked ++ L .ready).Nodup := by
  obtain ⟨L', hc', hnd, -⟩ := hp.queues
  obtain rfl : L' = L := funext fun q => (hc' q).unique (hc q)
  exact (List.perm_append_comm.nodup_iff).mp hnd.of_append_left

theorem schedWakeExpired_spec {s : State} {L : Queue → List TaskRef} (hc : Chains s L)
    (hnd : (L .blocked ++ L .ready).Nodup) (nowTick : ℕ) :
    ∃ s', schedWakeExpired nowTick s = some (s', ((L .blocked).filter (s.due nowTick)).length) ∧
      Woken s L ((L .blocked).filter (!s.due nowTick ·)) ((L .blocked).filter (s.due nowTick)) s' := by
  have hstart : Woken (schedLockIrq s) L ([] ++ L .blocked) [] (schedLockIrq s) := .refl hc
  have hlen := linked_length_le (hc .blocked)
  obtain ⟨s', hloop, h⟩ := wakeLoop_exact nowTick hnd hstart (by simp)
    (n := (schedMaxTasks + 1) * (schedMaxTasks + 1)) (by unfold schedMaxTasks at *; omega)
  have hhead : s.blockedQueue = (L .blocked).head? := (hc .blocked).head_eq
  refine ⟨schedUnlockIrq s.irqsEnabled s', ?_, ?_⟩
  · rw [← hhead, List.length_nil] at hloop
    unfold schedWakeExpired
    simp only [hloop, Option.bind_eq_bind, Option.bind_some]
    rfl
  · rw [schedUnlockIrq_eq]
    refine ⟨h.blocked, h.ready, h.next, h.tasks, ?_⟩
    rw [h.rest]
    simp [schedLockIrq]

/-- `SchedWakeExpired` moves the sleepers whose time has come, all of them and no other task. -/
theorem schedWakeExpired_exact {s : State} (hp : Partition s) {L : Queue → List TaskRef} (hc : Chains s L)
    (nowTick : ℕ) :
    ∃ s', schedWakeExpired nowTick s = some (s', ((L .blocked).filter (s.due nowTick)).length) ∧
      Woken s L ((L .blocked).filter (!s.due nowTick ·)) ((L .blocked).filter (s.due nowTick)) s' :=
  schedWakeExpired_spec hc (hp.nodup hc) nowTick

/-- Three tasks sleep until 5, 9 and 7. At 7 the first and the last of them are moved. -/
theorem schedWakeExpired_exact_two : ∃ s s', system.ReachableIf LeavesUnlocked s ∧ schedWakeExpired 7 s = some (s', 2) ∧
    Linked s'.next s'.blockedQueue [2] ∧ Linked s'.next s'.readyQueue [1, 3] := by
  obtain ⟨s, -, hs, ht⟩ := System.exists_reachableIf LeavesUnlocked system_init
    ([createTask, createTask, createTask, .yield, .sleepUntil 5, .sleepUntil 9, .sleepUntil 7].map .call)
    (fun s => s.heads = (none, some 1, none) ∧ [s.next 1, s.next 2, s.next 3] = [some 2, some 3, none] ∧
      [1, 2, 3].map (s.due 7) = [true, false, true]) (by decide +kernel)
  obtain ⟨hheads, hnext, hdue⟩ := of_decide_eq_true ht
  simp only [State.heads, Prod.mk.injEq] at hheads
  simp only [List.cons.injEq, List.map_cons, and_true] at hnext hdue
  have hc : Chains s fun q => if q = .blocked then [1, 2, 3] else [] := by
    intro q
    cases q with
    | ready => exact hheads.1
    | blocked => exact ⟨hheads.2.1, hnext.1, hnext.2.1, hnext.2.2⟩
    | dead => exact hheads.2.2
  obtain ⟨s', hrun, h⟩ := schedWakeExpired_exact (reachable_inv hs).partition hc 7
  have hb := h.blocked
  have hr := h.ready
  simp [hdue] at hrun hb hr
  exact ⟨s, s', hs, hrun, hb, hr⟩

end Novium.Sched
