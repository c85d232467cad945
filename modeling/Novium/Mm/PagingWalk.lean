import Novium.Mm.Paging

/-! What the tables mean after `PagingInit` and any calls: a map from pages to frames,
and the permissions that both levels of the walk leave. -/

namespace Novium.Mm

open Novium.Lib

theorem Installed.translate {m : Image} {p : Paging} (h : Installed m p) (rest : BitVec 32 → BitVec 32)
    (a : BitVec 32) :
    p.translate m rest a = if (p.entryAt a).getLsbD 0 then
      some ((p.entryAt a &&& ~~~low 32 12) ||| (a &&& low 32 12)) else none := by
  have hdir : (p.walkDirectory a).getLsbD 0 = true := by
    rw [h.walkDirectory, Image.directoryEntry_bit m _ (by decide)]
    decide
  rw [Paging.translate, h.walkTable, hdir, frameMask_eq, show (0xfff#32 : BitVec 32) = low 32 12 by decide]
  simp

namespace PagingCall

/-- Flags below the page size that contain `PAGING_PRESENT`. -/
def Ok : PagingCall → Prop
  | map _ _ f => f < pagingPageSize ∧ f &&& pagingPresent = pagingPresent
  | unmap _ => True

/-- Where an address goes after the most recent call on its page. -/
def target (a : BitVec 32) : Option PagingCall → Option (BitVec 32)
  | none => some a
  | some (map _ pa _) => some ((pa &&& 0xfffff000#32) ||| (a &&& 0xfff#32))
  | some (unmap _) => none

end PagingCall

theorem latest_mem {page : BitVec 32} {calls : List PagingCall} {c : PagingCall}
    (h : PagingCall.latest page calls = some c) : c ∈ calls :=
  List.mem_reverse.mp (List.mem_of_find?_eq_some h)

theorem getLsbD_zero_of_and {f : BitVec 32} (h : f &&& pagingPresent = pagingPresent) : f.getLsbD 0 = true := by
  have := congrArg (BitVec.getLsbD · 0) h
  simp only [BitVec.getLsbD_and] at this
  rw [show pagingPresent.getLsbD 0 = true by decide, Bool.and_true] at this
  exact this

/-- After any calls an address goes where the most recent call on its page says, or
to itself, and a call moves no address outside its page. -/
theorem page_tables_map (m : Image) (rest : BitVec 32 → BitVec 32) (boot : Paging) {calls : List PagingCall}
    (hok : ∀ c ∈ calls, c.Ok) :
    (∀ a : BitVec 32, (paged m boot calls).translate m rest a = PagingCall.target a (PagingCall.latest (a >>> 12) calls)) ∧
      ∀ (c : PagingCall) (a : BitVec 32), c.page ≠ a >>> 12 →
        (c.run m (paged m boot calls)).translate m rest a = (paged m boot calls).translate m rest a := by
  have hinst := installed_paged m boot calls
  refine ⟨fun a => ?_, fun c a hne => ?_⟩
  · rw [hinst.translate, entryAt_paged]
    cases hlast : PagingCall.latest (a >>> 12) calls with
    | none =>
      have hbit : ((a &&& ~~~low 32 12) ||| pageDirectoryFlags).getLsbD 0 = true := by
        rw [getLsbD_or_low _ _ (by decide)]
        decide
      simp only [Option.map_none, Option.getD_none, hbit, if_true]
      rw [or_and_high a (by decide), and_high_or_and]
      rfl
    | some c =>
      have hc := hok c (latest_mem hlast)
      cases c with
      | map v pa f =>
        obtain ⟨hf, hp⟩ := hc
        have hbit : ((pa &&& ~~~low 32 12) ||| f).getLsbD 0 = true := by
          rw [getLsbD_or_low _ _ (by decide), getLsbD_zero_of_and hp]
        simp only [Option.map_some, Option.getD_some, PagingCall.entry, hbit, if_true]
        rw [or_and_high pa (BitVec.lt_def.mp hf)]
        rfl
      | unmap v => simp [PagingCall.entry, PagingCall.target]
  · rw [(installed_run hinst c).translate, hinst.translate, entryAt_run, if_neg hne]

/-- Any page-aligned place for the tables. -/
def imageAt : Image := ⟨0x200000#32, by decide⟩

def blankPaging : Paging := ⟨fun _ => 0, fun _ _ => 0, false⟩

/-- A page mapped elsewhere and its neighbour unmapped. -/
theorem page_tables_map_two_pages :
    let calls := [PagingCall.map 0x5123#32 0x9000#32 0x003#32, .unmap 0x6000#32]
    (paged imageAt blankPaging calls).translate imageAt (fun _ => 0) 0x5abc#32 = some 0x9abc#32 ∧
      (paged imageAt blankPaging calls).translate imageAt (fun _ => 0) 0x6000#32 = none ∧
      (paged imageAt blankPaging calls).translate imageAt (fun _ => 0) 0x7123#32 = some 0x7123#32 := by
  have hok : ∀ c ∈ [PagingCall.map 0x5123#32 0x9000#32 0x003#32, .unmap 0x6000#32], c.Ok := by
    simp only [List.mem_cons, List.not_mem_nil, or_false, forall_eq_or_imp, forall_eq]
    exact ⟨⟨by decide, by decide⟩, trivial⟩
  obtain ⟨h, -⟩ := page_tables_map imageAt (fun _ => 0) blankPaging hok
  exact ⟨(h _).trans (by decide), (h _).trans (by decide), (h _).trans (by decide)⟩

section

variable {v pa f : BitVec 32} {calls : List PagingCall} {a : BitVec 32} (m : Image) (rest : BitVec 32 → BitVec 32)
  (boot : Paging)

theorem walkTable_bit (h : PagingCall.latest (a >>> 12) calls = some (.map v pa f)) {k : ℕ} (hk : k < 12) :
    ((paged m boot calls).walkTable m rest a).getLsbD k = f.getLsbD k := by
  rw [(installed_paged m boot calls).walkTable, entryAt_paged, h]
  exact getLsbD_or_low _ _ hk

theorem walkDirectory_bit (calls : List PagingCall) (a : BitVec 32) {k : ℕ} (hk : k < 12) :
    ((paged m boot calls).walkDirectory a).getLsbD k = pageDirectoryFlags.getLsbD k := by
  rw [(installed_paged m boot calls).walkDirectory, Image.directoryEntry_bit m _ hk]

theorem writable_paged (h : PagingCall.latest (a >>> 12) calls = some (.map v pa f)) :
    (paged m boot calls).writable m rest a = f.getLsbD 1 := by
  rw [Paging.writable, walkTable_bit m rest boot h (by decide), walkDirectory_bit m boot calls a (by decide),
    show pageDirectoryFlags.getLsbD 1 = true by decide, Bool.true_and]

theorem userMode_paged (calls : List PagingCall) (a : BitVec 32) :
    (paged m boot calls).userMode m rest a = false := by
  rw [Paging.userMode, walkDirectory_bit m boot calls a (by decide),
    show pageDirectoryFlags.getLsbD 2 = false by decide, Bool.false_and]

end

theorem and_twoPow_ne_zero_iff (f : BitVec 32) {k : ℕ} (hk : k < 32) :
    f &&& BitVec.twoPow 32 k ≠ 0#32 ↔ f.getLsbD k = true := by
  rw [BitVec.and_twoPow]
  by_cases h : f.getLsbD k = true
  · rw [if_pos h]
    refine iff_of_true (fun h0 => ?_) h
    have := congrArg (BitVec.getLsbD · k) h0
    simp [hk] at this
  · simp [h]

theorem has_writable_iff (f : BitVec 32) : f &&& pagingWritable ≠ 0#32 ↔ f.getLsbD 1 = true :=
  and_twoPow_ne_zero_iff f (k := 1) (by decide)

/-- The permissions of a mapped page are the ones asked for exactly when user access
was not among them: writing always follows the flags, user access is never given. -/
theorem permissions_iff (m : Image) (rest : BitVec 32 → BitVec 32) (boot : Paging) {calls : List PagingCall}
    {a v pa f : BitVec 32} (h : PagingCall.latest (a >>> 12) calls = some (.map v pa f)) :
    (((paged m boot calls).writable m rest a = true ↔ f &&& pagingWritable ≠ 0#32) ∧
      ((paged m boot calls).userMode m rest a = true ↔ f &&& pagingUser ≠ 0#32)) ↔ f &&& pagingUser = 0#32 := by
  rw [writable_paged m rest boot h, userMode_paged m rest boot calls a, has_writable_iff]
  constructor
  · intro hperm
    by_contra hu
    exact absurd (hperm.2.mpr hu) (by decide)
  · intro hu
    exact ⟨Iff.rfl, iff_of_false (by decide) (not_not.mpr hu)⟩

/-- A page mapped read-only over an earlier writable mapping. -/
theorem permissions_read_only :
    let calls := [PagingCall.map 0x5000#32 0x9000#32 0x003#32, .map 0x5000#32 0x9000#32 0x001#32]
    ((paged imageAt blankPaging calls).writable imageAt (fun _ => 0) 0x5abc#32 = true ↔
        0x001#32 &&& pagingWritable ≠ 0#32) ∧
      ((paged imageAt blankPaging calls).userMode imageAt (fun _ => 0) 0x5abc#32 = true ↔
        0x001#32 &&& pagingUser ≠ 0#32) :=
  (permissions_iff imageAt (fun _ => 0) blankPaging
    (show PagingCall.latest (0x5abc#32 >>> 12) _ = some (.map 0x5000#32 0x9000#32 0x001#32) by decide)).mpr (by decide)

/-- The flags are among the three that the header names. -/
def PagingCall.Plain : PagingCall → Prop
  | map _ _ f => f &&& ~~~(pagingPresent ||| pagingWritable ||| pagingUser) = 0#32
  | unmap _ => True

/-- A page mapped with `PAGING_USER` is closed to user mode. -/
theorem user_mapping_closed :
    ¬ ∀ (m : Image) (rest : BitVec 32 → BitVec 32) (boot : Paging) (calls : List PagingCall) (a v pa f : BitVec 32),
      (∀ c ∈ calls, c.Plain) → PagingCall.latest (a >>> 12) calls = some (.map v pa f) → f &&& pagingPresent ≠ 0#32 →
      ((paged m boot calls).writable m rest a = true ↔ f &&& pagingWritable ≠ 0#32) ∧
        ((paged m boot calls).userMode m rest a = true ↔ f &&& pagingUser ≠ 0#32) := by
  intro hall
  have hplain : ∀ c ∈ [PagingCall.map 0x5000#32 0x9000#32 0x007#32], c.Plain := by
    intro c hc
    rw [List.mem_singleton.mp hc, PagingCall.Plain]
    decide
  obtain ⟨-, huser⟩ := hall imageAt (fun _ => 0) blankPaging _ 0x5000#32 0x5000#32 0x9000#32 0x007#32 hplain
    (by decide) (by decide)
  have := huser.mpr (by decide)
  rw [userMode_paged] at this
  cases this

end Novium.Mm
