import Novium.Ipc.Wakeups

/-! The semaphores of `ipc/sync.c`. Beside the semaphore stand the numbers of permits
that posts have added and waits have taken. -/

namespace Novium.Ipc

open Novium.Lib

structure IpcSemaphore where
  count : ℕ
  limit : ℕ
  wait : IpcWait

def semInit (initial limit : ℕ) : IpcSemaphore :=
  ⟨if limit ≠ 0 ∧ initial > limit then limit else initial, limit, emptyWait⟩

def semHasPermit (s : IpcSemaphore) : Bool := s.count > 0

def semTryWait (s : IpcSemaphore) : IpcSemaphore × IpcStatus :=
  if s.count = 0 then (s, .errEmpty) else ({ s with count := sub32 s.count 1 }, .ok)

def semPost (s : IpcSemaphore) : IpcSemaphore × IpcStatus :=
  if s.limit ≠ 0 ∧ s.count ≥ s.limit then (s, .errFull) else ({ s with count := u32 (s.count + 1) }, .ok)

inductive SemOp where
  | wait | tryWait | post
  deriving DecidableEq, Repr

/-- A call, with a null pointer or on the semaphore. -/
structure SemCall where
  op : SemOp
  null : Bool

inductive SemPc where
  /-- between calls, behind one that returned `last` -/
  | out (last : Option IpcStatus)
  /-- `SemWait` before its `SemTryWait` -/
  | waitTry
  | park (p : ParkPc)
  | tryWait
  | post
  /-- `SemPost` inside `IpcWakeOne`, with the `Count` that the post found -/
  | wake (found : ℕ) (p : WakePc)
  deriving DecidableEq, Repr

structure SemObj where
  sem : IpcSemaphore
  posted : ℕ
  taken : ℕ

def SemObj.setWait (o : SemObj) (q : IpcWait) : SemObj := { o with sem := { o.sem with wait := q } }

def SemObj.recount (o : SemObj) (count posted taken : ℕ) : SemObj := ⟨{ o.sem with count := count }, posted, taken⟩

section

variable (o : SemObj) (q : IpcWait) (count posted taken : ℕ)

@[simp] theorem setWait_count : (o.setWait q).sem.count = o.sem.count := rfl
@[simp] theorem setWait_limit : (o.setWait q).sem.limit = o.sem.limit := rfl
@[simp] theorem setWait_wait : (o.setWait q).sem.wait = q := rfl
@[simp] theorem recount_count : (o.recount count posted taken).sem.count = count := rfl
@[simp] theorem recount_limit : (o.recount count posted taken).sem.limit = o.sem.limit := rfl
@[simp] theorem recount_wait : (o.recount count posted taken).sem.wait = o.sem.wait := rfl
@[simp] theorem recount_posted : (o.recount count posted taken).posted = posted := rfl
@[simp] theorem recount_taken : (o.recount count posted taken).taken = taken := rfl

end

/-- The object after an attempt to take a permit, and the status. -/
def SemObj.tryWait (o : SemObj) : SemObj × IpcStatus :=
  match semTryWait o.sem with
  | (s, .ok) => (⟨s, o.posted, o.taken + 1⟩, .ok)
  | (s, st) => ({ o with sem := s }, st)

def SemObj.post (o : SemObj) : SemObj × IpcStatus :=
  match semPost o.sem with
  | (s, .ok) => (⟨s, o.posted + 1, o.taken⟩, .ok)
  | (s, st) => ({ o with sem := s }, st)

def semStart (c : SemCall) : SemPc → Option SemPc
  | .out _ =>
    if c.null then some (.out (some .errInvalid))
    else match c.op with
      | .wait => some .waitTry
      | .tryWait => some .tryWait
      | .post => some .post
  | _ => none

/-- The return from `IpcPark` goes back to the head of the loop of `SemWait`. -/
def SemPc.afterPark : ParkPc ⊕ IpcStatus → SemPc
  | .inl p => .park p
  | .inr .ok => .waitTry
  | .inr st => .out (some st)

def semStep (live : ℕ → Bool) (self : ℕ) (o : SemObj) : SemPc → Option (SemObj × SemPc × Effect)
  | .out _ => none
  | .waitTry =>
    match o.tryWait with
    | (o', .errEmpty) => some (o', .park .check, .stay)
    | (o', st) => some (o', .out (some st), .stay)
  | .park p =>
    let (q, r, eff) := ipcPark self (semHasPermit o.sem) o.sem.wait p
    some (o.setWait q, .afterPark r, eff)
  | .tryWait =>
    let (o', st) := o.tryWait
    some (o', .out (some st), .stay)
  | .post =>
    match o.post with
    | (o', .ok) => some (o', .wake o.sem.count .take, .stay)
    | (o', st) => some (o', .out (some st), .stay)
  | .wake found p => do
    let (q, r, eff) ← ipcWakeOne live o.sem.wait p
    some (o.setWait q, r.elim (.out (some .ok)) (.wake found), eff)

def semCode : Code SemObj SemPc SemCall where
  rest := .out none
  start := semStart
  step := semStep

abbrev SemWorld := World SemObj SemPc

abbrev SemEvent := Event SemCall

def semSystem (initial limit : ℕ) : System SemWorld SemEvent :=
  semCode.system (· = ⟨semInit initial limit, 0, 0⟩)

inductive SemChange (live : ℕ → Bool) (self : ℕ) (o : SemObj) : SemPc → SemObj → SemPc → Effect → Prop where
  | take {pc : SemPc} (attempt : pc = .waitTry ∨ pc = .tryWait) (some_left : o.sem.count ≠ 0) :
      SemChange live self o pc (o.recount (sub32 o.sem.count 1) o.posted (o.taken + 1)) (.out (some .ok)) .stay
  | waitFails (none_left : o.sem.count = 0) : SemChange live self o .waitTry o (.park .check) .stay
  | tryFails (none_left : o.sem.count = 0) : SemChange live self o .tryWait o (.out (some .errEmpty)) .stay
  | park (p : ParkPc) : SemChange live self o (.park p)
      (o.setWait (ipcPark self (semHasPermit o.sem) o.sem.wait p).1)
      (.afterPark (ipcPark self (semHasPermit o.sem) o.sem.wait p).2.1)
      (ipcPark self (semHasPermit o.sem) o.sem.wait p).2.2
  | post (room : ¬(o.sem.limit ≠ 0 ∧ o.sem.count ≥ o.sem.limit)) :
      SemChange live self o .post (o.recount (u32 (o.sem.count + 1)) (o.posted + 1) o.taken)
        (.wake o.sem.count .take) .stay
  | full (full : o.sem.limit ≠ 0 ∧ o.sem.count ≥ o.sem.limit) :
      SemChange live self o .post o (.out (some .errFull)) .stay
  | wake {found : ℕ} {p : WakePc} {q : IpcWait} {r : Option WakePc} {eff : Effect}
      (one : ipcWakeOne live o.sem.wait p = some (q, r, eff)) :
      SemChange live self o (.wake found p) (o.setWait q) (r.elim (.out (some .ok)) (.wake found)) eff

theorem tryWait_cases (o : SemObj) :
    (o.sem.count = 0 ∧ o.tryWait = (o, .errEmpty)) ∨ (o.sem.count ≠ 0 ∧
      o.tryWait = (o.recount (sub32 o.sem.count 1) o.posted (o.taken + 1), .ok)) := by
  unfold SemObj.tryWait semTryWait SemObj.recount
  by_cases h : o.sem.count = 0
  · exact .inl ⟨h, by simp [h]⟩
  · exact .inr ⟨h, by simp [h]⟩

theorem semStep_change {live : ℕ → Bool} {self : ℕ} {o o' : SemObj} {pc pc' : SemPc} {eff : Effect}
    (h : semStep live self o pc = some (o', pc', eff)) : SemChange live self o pc o' pc' eff := by
  cases pc with
  | out last => cases h
  | waitTry =>
    rcases tryWait_cases o with ⟨hc, ht⟩ | ⟨hc, ht⟩
    · simp only [semStep, ht] at h
      cases h
      exact .waitFails hc
    · simp only [semStep, ht, Option.some.injEq, Prod.mk.injEq] at h
      obtain ⟨rfl, rfl, rfl⟩ := h
      exact .take (.inl rfl) hc
  | park p =>
    cases h
    exact .park p
  | tryWait =>
    rcases tryWait_cases o with ⟨hc, ht⟩ | ⟨hc, ht⟩
    · simp only [semStep, ht] at h
      cases h
      exact .tryFails hc
    · simp only [semStep, ht, Option.some.injEq, Prod.mk.injEq] at h
      obtain ⟨rfl, rfl, rfl⟩ := h
      exact .take (.inr rfl) hc
  | post =>
    simp only [semStep, SemObj.post, semPost] at h
    split_ifs at h with hfull
    · cases h
      exact .full hfull
    · cases h
      exact .post hfull
  | wake found p =>
    obtain ⟨⟨q, r, eff'⟩, hone, h⟩ := Option.bind_eq_some_iff.mp h
    cases h
    exact .wake hone

end Novium.Ipc
