import Novium.Lib.Objects
import Novium.Mm.KmallocSpec
import Novium.Mm.KfreeExact
import Novium.Mm.KmallocUndo

/-! The heap as its callers see it: a store of objects. A call of `kmalloc` adds one beside the others, `kfree` takes
one away, and a store changes one cell of one object. -/

namespace Novium.Mm

open Novium.Lib

/-- What a caller has at the pointer `p`. -/
def Heap.payload (s : Heap) (p : ℕ) : Object ℕ :=
  ⟨s.size (p - metaSize) - metaSize, fun k => if k < s.size (p - metaSize) - metaSize then s.mem (p + k) else 0⟩

def World.objects (w : World) : Objects ℕ := fun p => if p ∈ w.live then some (w.heap.payload p) else none

def Event.op : Event → ObjectOp ℕ
  | .kmalloc size => .alloc size
  | .kfree p => .free p
  | .store a v => .write a v
  | .heapInit | .pageAlloc | .pageAllocPages _ | .pageFree _ | .pageFreePages _ _ => .other

section

variable {w w' : World} {s s' : Heap} {p a c v : ℕ}

theorem live_blocks (h : heapSystem.ReachableIf Sound w) :
    ∃ blocks fl, WellFormed w.heap blocks fl ∧ ∀ p, p ∈ w.live ↔ ∃ c, p = c + metaSize ∧ IsLive w.heap blocks c := by
  have hi := reachable_inv h
  obtain ⟨fl, blocks, hl⟩ := hi.laid
  refine ⟨blocks, fl, hl.wellFormed hi.owned, fun p => ?_⟩
  rw [hl.mem_live]
  exact ⟨fun ⟨c, hb, hf, hp⟩ => ⟨c, hp, hb, hf⟩, fun ⟨c, hp, hb, hf⟩ => ⟨c, hb, hf, hp⟩⟩

theorem payload_eq (hsize : s'.size c = s.size c)
    (hmem : ∀ a, c + metaSize ≤ a → a < c + s.size c → s'.mem a = s.mem a) :
    s'.payload (c + metaSize) = s.payload (c + metaSize) := by
  unfold Heap.payload
  rw [Nat.add_sub_cancel, hsize, Object.mk.injEq]
  refine ⟨rfl, funext fun k => ?_⟩
  split_ifs with hk
  · exact hmem _ (Nat.le_add_right _ _) (by omega)
  · rfl

theorem objects_live (hp : p ∈ w.live) : w.objects p = some (w.heap.payload p) := if_pos hp

theorem objects_some {x : Object ℕ} (h : w.objects p = some x) : p ∈ w.live ∧ x = w.heap.payload p := by
  unfold World.objects at h
  split_ifs at h with hp
  exact ⟨hp, (Option.some.inj h).symm⟩

theorem objects_congr (hlive : w'.live = w.live) (hpayload : ∀ p ∈ w.live, w'.heap.payload p = w.heap.payload p) :
    w'.objects = w.objects := by
  funext p
  unfold World.objects
  rw [hlive]
  split_ifs with hp
  · rw [hpayload p hp]
  · rfl

theorem hold_objects (w : World) (count : ℕ) (r : Pages × ℕ) : (w.hold count r).objects = w.objects :=
  objects_congr rfl fun _ _ => rfl

theorem release_objects (w : World) (address count : ℕ) (ps : Pages) :
    (w.release address count ps).objects = w.objects :=
  objects_congr rfl fun _ _ => rfl

theorem payload_set (ha : a ≠ c + 4) (hout : ∀ b, c + metaSize ≤ b → b < c + s.size c → b ≠ a) :
    (s.set a 0 v).payload (c + metaSize) = s.payload (c + metaSize) := by
  refine payload_eq ?_ fun b hlo hhi => ?_
  · exact Function.update_of_ne (fun e => ha e.symm) ..
  · exact Function.update_of_ne (hout b hlo hhi) ..

theorem payload_write (hspan : metaSize ≤ s.size c) (hlo : c + metaSize ≤ a) (hhi : a < c + s.size c) :
    (s.set a 0 v).payload (c + metaSize) = (s.payload (c + metaSize)).write (a - (c + metaSize)) v := by
  have hsize : (s.set a 0 v).size c = s.size c := by
    refine Function.update_of_ne ?_ ..
    unfold metaSize at hlo
    omega
  unfold Heap.payload Object.write
  rw [Nat.add_sub_cancel, hsize, Object.mk.injEq]
  refine ⟨rfl, funext fun k => ?_⟩
  show (if k < s.size c - metaSize then Function.update s.mem a v (c + metaSize + k) else 0) = _
  by_cases hk : k = a - (c + metaSize)
  · subst hk
    rw [Function.update_self, Nat.add_sub_cancel' hlo, Function.update_self, if_pos (by omega)]
  · rw [Function.update_of_ne hk, Function.update_of_ne (by omega)]

theorem store_step (h : heapSystem.ReachableIf Sound w) (ha : Writable w a) :
    w.objects.Step (.write a v) (World.objects { w with heap := w.heap.set a 0 v }) := by
  obtain ⟨blocks, fl, hwf, hlive⟩ := live_blocks h
  obtain ⟨p, hp, hlo, hhi⟩ | hout := ha
  · obtain ⟨c, rfl, hc⟩ := (hlive p).mp hp
    rw [Nat.add_sub_cancel] at hhi
    obtain ⟨-, -, -, -, hspan, -⟩ := hwf.within hc.1
    have h24 : blockSpan = 24 := rfl
    have h16 : metaSize = 16 := rfl
    have hsame : World.objects { w with heap := w.heap.set a 0 v } = Function.update w.objects (c + metaSize)
        (some ((w.heap.payload (c + metaSize)).write (a - (c + metaSize)) v)) := by
      funext q
      by_cases hq : q = c + metaSize
      · subst hq
        rw [Function.update_self, objects_live (w := { w with heap := w.heap.set a 0 v }) hp,
          payload_write (by omega) hlo hhi]
      rw [Function.update_of_ne hq]
      unfold World.objects
      split_ifs with hql
      · obtain ⟨d, rfl, hd⟩ := (hlive q).mp hql
        have hdspan := (hwf.within hd.1).choose_spec.2.2.2.1
        have hapart := hwf.apart hc.1 hd.1
        rw [payload_set]
        · omega
        · intro b hblo hbhi
          omega
      · rfl
    rw [hsame]
    refine .write (objects_live hp) ⟨hlo, ?_⟩
    simp only [Heap.payload, Nat.add_sub_cancel]
    omega
  · have hcovers : ∀ c, IsLive w.heap blocks c → a < c ∨ c + w.heap.size c ≤ a := by
      intro c hc
      obtain ⟨sg, hsg, hbase, hstop, -⟩ := hwf.within hc.1
      obtain hlt | hge := hout sg hsg
      · exact .inl (by omega)
      · exact .inr (by omega)
    have hsame : World.objects { w with heap := w.heap.set a 0 v } = w.objects := by
      refine objects_congr rfl fun q hq => ?_
      obtain ⟨c, rfl, hc⟩ := (hlive q).mp hq
      obtain ⟨-, -, -, -, hspan, -⟩ := hwf.within hc.1
      have h24 : blockSpan = 24 := rfl
      have hbeside := hcovers c hc
      exact payload_set (by omega) fun b hblo hbhi => by omega
    rw [hsame]
    refine .stray fun q x hq hcov => ?_
    obtain ⟨hql, rfl⟩ := objects_some hq
    obtain ⟨c, rfl, hc⟩ := (hlive q).mp hql
    have hbeside := hcovers c hc
    obtain ⟨hlo, hhi⟩ := hcov
    simp only [Heap.payload, Nat.add_sub_cancel] at hhi
    omega

theorem kmalloc_zero_mem {blocks : Segment → List ℕ} {fl : List ℕ} {size : ℕ} (h : WellFormed s blocks fl)
    (hrun : kmalloc size s = some (s', 0)) : s'.mem = s.mem := by
  unfold kmalloc at hrun
  split_ifs at hrun with h0 hbig
  · cases hrun
    rfl
  · cases hrun
    rfl
  have htotal : blockSpan ≤ heapAlignUp (size + metaSize) ∧ heapAlignUp (size + metaSize) < 2 ^ 32 := by
    unfold heapAlignUp u32 heapAlign metaSize blockSpan at *
    omega
  have hsupplied : ∀ s₁ b, kmallocBlock (heapAlignUp (size + metaSize)) s = some (s₁, b) →
      ¬Supplied s s₁ fl b (heapAlignUp (size + metaSize)) := by
    intro s₁ b hblock hsup
    obtain ⟨s₂, hcut, -⟩ := hsup.cut htotal.1
    have hb : b ≠ 0 := by
      have hlow := hsup.low
      unfold pageSize at hlow
      omega
    simp only [hblock, Option.bind_eq_bind, Option.bind_some, if_neg hb, hcut, Option.some.injEq, Prod.mk.injEq] at hrun
    unfold metaSize at hrun
    omega
  obtain ⟨-, s₁, b, hblock, hsup⟩ | ⟨-, ⟨-, hnone⟩ | ⟨-, ⟨-, hnone⟩ | ⟨-, s₁, b, hblock, hsup⟩⟩⟩ :=
    kmallocBlock_cases h htotal.2
  · exact absurd hsup (hsupplied s₁ b hblock)
  · simp only [hnone, Option.bind_eq_bind, Option.bind_some, if_true] at hrun
    cases hrun
    rfl
  · simp only [hnone, Option.bind_eq_bind, Option.bind_some, if_true] at hrun
    cases hrun
    rfl
  · exact absurd hsup (hsupplied s₁ b hblock)

theorem kmalloc_step {size : ℕ} (h : heapSystem.ReachableIf Sound w)
    (h' : heapSystem.ReachableIf Sound { w with heap := s', live := if p = 0 then w.live else p :: w.live })
    (hrun : kmalloc size w.heap = some (s', p)) :
    w.objects.Step (.alloc size)
      (World.objects { w with heap := s', live := if p = 0 then w.live else p :: w.live }) := by
  obtain ⟨blocks, fl, hwf, hlive⟩ := live_blocks h
  by_cases hp : p = 0
  · subst hp
    have hmem := kmalloc_zero_mem hwf hrun
    have hsame : World.objects { w with heap := s', live := w.live } = w.objects := by
      refine objects_congr rfl fun q hq => ?_
      obtain ⟨c, rfl, -⟩ := (hlive q).mp hq
      exact payload_eq (congrFun hmem _) fun a _ _ => congrFun hmem a
    rw [if_pos rfl, hsame]
    exact .fail
  rw [if_neg hp] at h' ⊢
  obtain ⟨s₁, b, total, rfl, hsup, hsize, htotal, hmem⟩ := kmalloc_writes hwf hrun hp
  obtain ⟨blocks', fl', hwf', hlive'⟩ := live_blocks h'
  have h24 : blockSpan = 24 := rfl
  have h16 : metaSize = 16 := rfl
  have hkeeps : ∀ c, IsLive w.heap blocks c → s'.size c = w.heap.size c ∧
      s'.payload (c + metaSize) = w.heap.payload (c + metaSize) := by
    intro c hc
    have hsame : s'.size c = w.heap.size c := hmem _ (hsup.beyond hwf hc (.inl rfl))
    exact ⟨hsame, payload_eq hsame fun a hlo hhi => hmem a (hsup.beyond hwf hc (.inr ⟨hlo, hhi⟩))⟩
  have hfresh : b + metaSize ∉ w.live := by
    intro hin
    obtain ⟨c, he, hc⟩ := (hlive _).mp hin
    obtain rfl : b = c := Nat.add_right_cancel he
    obtain ⟨-, -, -, -, hspan, -⟩ := hwf.within hc.1
    have hbeside := hsup.beside hwf hc
    have henough := hsup.enough
    omega
  have hsame : World.objects { w with heap := s', live := (b + metaSize) :: w.live } =
      Function.update w.objects (b + metaSize) (some (s'.payload (b + metaSize))) := by
    funext q
    by_cases hq : q = b + metaSize
    · subst hq
      rw [Function.update_self]
      exact if_pos (List.mem_cons_self ..)
    rw [Function.update_of_ne hq]
    unfold World.objects
    by_cases hql : q ∈ w.live
    · obtain ⟨c, rfl, hc⟩ := (hlive q).mp hql
      rw [if_pos hql, if_pos (List.mem_cons_of_mem _ hql), (hkeeps c hc).2]
    · rw [if_neg hql, if_neg (by simp [hq, hql])]
  rw [hsame]
  refine .alloc (if_neg hfresh) ?_ fun q y hq => ?_
  · simp only [Heap.payload, Nat.add_sub_cancel]
    omega
  · obtain ⟨hql, rfl⟩ := objects_some hq
    obtain ⟨c, rfl, hc⟩ := (hlive q).mp hql
    obtain ⟨b', hb', hlb⟩ := (hlive' (b + metaSize)).mp (List.mem_cons_self ..)
    obtain ⟨c', hc', hlc⟩ := (hlive' (c + metaSize)).mp (List.mem_cons_of_mem _ hql)
    obtain rfl : b = b' := Nat.add_right_cancel hb'
    obtain rfl : c = c' := Nat.add_right_cancel hc'
    have hne : b ≠ c := by
      rintro rfl
      exact hfresh hql
    have hapart := hwf'.apart hlb.1 hlc.1
    simp only [(hkeeps c hc).1] at hapart
    simp only [Heap.payload, Nat.add_sub_cancel]
    omega

theorem kfree_step (h : heapSystem.ReachableIf Sound w) (hp : p ∈ w.live) (hok : ¬GivesBack w.heap (p - metaSize))
    (hrun : kfree p w.heap = some s') :
    w.objects.Step (.free p) (World.objects { w with heap := s', live := w.live.filter (· ≠ p) }) := by
  obtain ⟨blocks, fl, hwf, hlive⟩ := live_blocks h
  obtain ⟨c, rfl, hc⟩ := (hlive p).mp hp
  rw [Nat.add_sub_cancel] at hok
  obtain ⟨s, blocks', fl', hcall, hfreed⟩ := kfree_freed hwf hc hok
  rw [hrun] at hcall
  obtain rfl := Option.some.inj hcall
  have hsame : World.objects { w with heap := s', live := w.live.filter (· ≠ c + metaSize) } =
      Function.update w.objects (c + metaSize) none := by
    funext q
    by_cases hq : q = c + metaSize
    · subst hq
      rw [Function.update_self]
      exact if_neg (by simp)
    rw [Function.update_of_ne hq]
    unfold World.objects
    by_cases hql : q ∈ w.live
    · obtain ⟨d, rfl, hd⟩ := (hlive q).mp hql
      have hne : d ≠ c := fun e => hq (by rw [e])
      have h16 : metaSize = 16 := rfl
      rw [if_pos hql, if_pos (by simp [hql, hne]), payload_eq (hfreed.size_eq hwf hc hd hne)]
      intro a hlo hhi
      exact hfreed.mem hwf hc hd hne (by omega) hhi fun he => by omega
    · rw [if_neg hql, if_neg (by simp [hql])]
  rw [hsame]
  exact .free (objects_live hp)

theorem objects_step {e : Event} (h : heapSystem.ReachableIf Sound w) (hok : Sound w e)
    (hn : heapSystem.next w e = some w') : w.objects.Step e.op w'.objects := by
  have h' := h.step hok hn
  change w.next e = some w' at hn
  cases e with
  | heapInit =>
    rw [World.next] at hn
    split_ifs at hn with hup
    obtain ⟨s, -, rfl⟩ := Option.map_eq_some_iff.mp hn
    have hnone := ((reachable_inv h).down (by simpa using hup)).2
    have hsame : World.objects { w with heap := s, up := true } = w.objects :=
      objects_congr rfl fun q hq => by
        rw [hnone] at hq
        cases hq
    rw [hsame]
    exact .other
  | kmalloc size =>
    rw [World.next] at hn
    split_ifs at hn
    obtain ⟨⟨s, p⟩, hrun, rfl⟩ := Option.map_eq_some_iff.mp hn
    exact kmalloc_step h h' hrun
  | kfree p =>
    rw [World.next] at hn
    split_ifs at hn with hp
    obtain ⟨s, hrun, rfl⟩ := Option.map_eq_some_iff.mp hn
    exact kfree_step h hp hok.2 hrun
  | pageAlloc | pageAllocPages count =>
    rw [World.next, Option.some.injEq] at hn
    rw [← hn, hold_objects]
    exact .other
  | pageFree address | pageFreePages address count =>
    rw [World.next] at hn
    split_ifs at hn
    obtain rfl := Option.some.inj hn
    rw [release_objects]
    exact .other
  | store a v =>
    rw [World.next] at hn
    split_ifs at hn with ha
    obtain rfl := Option.some.inj hn
    exact store_step h ha

theorem objects_apart (h : heapSystem.ReachableIf Sound w) : w.objects.Apart := by
  refine h.invariantFrom (I := fun w => w.objects.Apart) (J := heapSystem.ReachableIf Sound) (fun _ h => h) ?_ fun w e w' hr hi hok hn =>
    hi.step (objects_step hr hok hn)
  intro w hw p x _ _ hp
  rw [show w.objects p = none from if_neg (by simp [hw.2.2.1])] at hp
  cases hp

/-- Over any run the heap is a store of objects with no address in common: the events do to the objects what their
operations say, and nothing else happens to them. -/
theorem heap_is_object_store {es : List Event} (h : heapSystem.ReachableIf Sound w)
    (hrun : heapSystem.runIf Sound w es = some w') :
    w.objects.Apart ∧ w.objects.Run (es.map Event.op) w'.objects ∧ w'.objects.Apart := by
  obtain ⟨h', hops⟩ := System.runIf_objects (fun w e w' hr hok hn => ⟨hr.step hok hn, objects_step hr hok hn⟩) h hrun
  exact ⟨objects_apart h, hops, objects_apart h'⟩

/-- A block is stored to, freed and taken again. -/
theorem heap_is_object_store_reused : ∃ w w' : World, heapSystem.ReachableIf Sound w ∧ w'.live = [0x101010, 0x101088] ∧
    w.objects.Run [.write 0x101010 7, .free 0x101010, .alloc 50] w'.objects := by
  obtain ⟨w, -, hw, hp⟩ := System.exists_reachableIf Sound bootWorld_init [.heapInit, .kmalloc 100, .kmalloc 200]
    (fun w => (heapSystem.runIf Sound w [.store 0x101010 7, .kfree 0x101010, .kmalloc 50]).any
      fun w => w.live = [0x101010, 0x101088]) (by decide +kernel)
  obtain ⟨w', hrun, hlive⟩ := (Option.any_eq_true _ _).mp hp
  exact ⟨w, w', hw, of_decide_eq_true hlive, (heap_is_object_store hw hrun).2.1⟩

theorem live_span (h : heapSystem.ReachableIf Sound w) (hp : p ∈ w.live) :
    metaSize ≤ p ∧ metaSize ≤ w.heap.size (p - metaSize) := by
  obtain ⟨blocks, fl, hwf, hlive⟩ := live_blocks h
  obtain ⟨c, rfl, hc⟩ := (hlive p).mp hp
  obtain ⟨-, -, -, -, hspan, -⟩ := hwf.within hc.1
  rw [Nat.add_sub_cancel]
  exact ⟨Nat.le_add_left .., Nat.le_trans (by decide) hspan⟩

/-- What a caller has stored in its block stays there, and the block stays its own, until the caller stores there again
or frees the block. -/
theorem stored_word_kept {es : List Event} {k : ℕ} (h : heapSystem.ReachableIf Sound w) (hp : p ∈ w.live)
    (hk : p + k < p - metaSize + w.heap.size (p - metaSize)) (hrun : heapSystem.runIf Sound w es = some w')
    (hspares : ∀ e ∈ es, e.op.Spares p k) :
    p ∈ w'.live ∧ w'.heap.size (p - metaSize) = w.heap.size (p - metaSize) ∧
      w'.heap.mem (p + k) = w.heap.mem (p + k) := by
  obtain ⟨h', hops⟩ := System.runIf_objects (fun w e w' hr hok hn => ⟨hr.step hok hn, objects_step hr hok hn⟩) h hrun
  obtain ⟨y, hy, hsize, hcell⟩ := hops.keeps (objects_live hp) fun op hop => by
    obtain ⟨e, he, rfl⟩ := List.mem_map.mp hop
    exact hspares e he
  obtain ⟨hp', rfl⟩ := objects_some hy
  obtain ⟨hlow, hspan⟩ := live_span h hp
  obtain ⟨-, hspan'⟩ := live_span h' hp'
  simp only [Heap.payload] at hsize hcell
  have hsame : w'.heap.size (p - metaSize) = w.heap.size (p - metaSize) := by omega
  rw [hsame, if_pos (by omega), if_pos (by omega)] at hcell
  exact ⟨hp', hsame, hcell⟩

/-- The block before the one that holds the word is freed, taken again and stored to. -/
theorem stored_word_kept_beside : ∃ w w' : World, heapSystem.ReachableIf Sound w ∧ w.heap.mem 0x101088 = 7 ∧
    w'.heap.mem 0x101010 = 9 ∧ 0x101088 ∈ w'.live ∧ w'.heap.mem 0x101088 = 7 := by
  obtain ⟨w, -, hw, hp⟩ := System.exists_reachableIf Sound bootWorld_init
    [.heapInit, .kmalloc 100, .kmalloc 200, .store 0x101088 7]
    (fun w => (0x101088 ∈ w.live ∧ 0x101088 + 0 < 0x101088 - metaSize + w.heap.size (0x101088 - metaSize)) ∧
      w.heap.mem 0x101088 = 7 ∧ (heapSystem.runIf Sound w [.kfree 0x101010, .kmalloc 50, .store 0x101010 9]).any
        fun w => w.heap.mem 0x101010 = 9) (by decide +kernel)
  obtain ⟨⟨hlive, hk⟩, hword, hany⟩ := of_decide_eq_true hp
  obtain ⟨w', hrun, hstored⟩ := (Option.any_eq_true _ _).mp hany
  obtain ⟨hlive', -, hkept⟩ := stored_word_kept hw hlive hk hrun (by simp [Event.op, ObjectOp.Spares])
  exact ⟨w, w', hw, hword, of_decide_eq_true hstored, hlive', hkept.trans hword⟩

theorem Row.single {s : Heap} {a e : ℕ} {l : List ℕ} (h : Row s a 0 l e) (hlt : a < e) (hfree : ∀ b ∈ l, s.isFree b = true)
    (hc : l.IsChain fun x y => ¬(s.isFree x = true ∧ s.isFree y = true)) : l = [a] ∧ a + s.size a = e := by
  cases l with
  | nil =>
    obtain rfl : a = e := h
    exact absurd hlt (Nat.lt_irrefl a)
  | cons b l =>
    obtain ⟨rfl, -, -, -, -, hrest⟩ := h
    cases l with
    | nil => exact ⟨rfl, hrest⟩
    | cons d l => exact absurd ⟨hfree b (by simp), hfree d (by simp)⟩ (List.isChain_cons_cons.mp hc).1

/-- When every block has been freed, each segment is one free block again, these are the free list, and a request that
fits in a segment is served without new pages. -/
theorem all_freed (h : heapSystem.ReachableIf Sound w) (hnone : w.live = []) :
    (∀ sg ∈ w.heap.segments, w.heap.isFree sg.base = true ∧ sg.base + w.heap.size sg.base = sg.stop) ∧
      (∀ b, OnFreeList w.heap b ↔ ∃ sg ∈ w.heap.segments, b = sg.base) ∧
      ∀ size, 0 < size → (∃ sg ∈ w.heap.segments, sg.base + size + metaSize ≤ sg.stop) →
        ∃ s p, kmalloc size w.heap = some (s, p) ∧ p ≠ 0 ∧ s.segments = w.heap.segments ∧ s.pages = w.heap.pages := by
  obtain ⟨blocks, fl, hwf, hlive⟩ := reachable_wellFormed h
  have hfree : ∀ b, IsBlock w.heap blocks b → w.heap.isFree b = true := by
    intro b hb
    by_contra hno
    have hmem := (hlive b).mpr ⟨hb, by simpa using hno⟩
    rw [hnone] at hmem
    cases hmem
  have hsingle : ∀ sg ∈ w.heap.segments, blocks sg = [sg.base] ∧ sg.base + w.heap.size sg.base = sg.stop := fun sg hsg =>
    (hwf.represents.tiled sg hsg).single (hwf.placed.lt_stop sg hsg) (fun b hb => hfree b ⟨sg, hsg, hb⟩)
      (hwf.represents.coalesced sg hsg)
  have hblock : ∀ b, IsBlock w.heap blocks b ↔ ∃ sg ∈ w.heap.segments, b = sg.base := by
    refine fun b => exists_congr fun sg => and_congr_right fun hsg => ?_
    rw [(hsingle sg hsg).1, List.mem_singleton]
  have hlist : ∀ b, b ∈ fl ↔ ∃ sg ∈ w.heap.segments, b = sg.base := fun b =>
    (hwf.represents.mem_list b).trans ((and_iff_left_of_imp (hfree b)).trans (hblock b))
  refine ⟨fun sg hsg => ⟨hfree _ ((hblock _).mpr ⟨sg, hsg, rfl⟩), (hsingle sg hsg).2⟩, fun b => ?_, ?_⟩
  · exact ⟨fun hb => (hlist b).mp (hwf.freeList.mem_of_onFreeList hb),
      fun hb => hwf.freeList.onFreeList ((hlist b).mpr hb)⟩
  · rintro size hpos ⟨sg, hsg, hfits⟩
    have hstop := hwf.placed.lt sg hsg
    obtain ⟨hbase, hend⟩ := hwf.placed.aligned sg hsg
    have hsize := (hsingle sg hsg).2
    unfold metaSize at hfits
    unfold pageSize at hbase hend
    have htotal : heapAlignUp (size + metaSize) ≤ w.heap.size sg.base := by
      unfold heapAlignUp u32 heapAlign metaSize
      omega
    -- the block of that segment is on the list, so the search ends at some block
    obtain ⟨-, hsmall⟩ | ⟨b, hb, hfound, -⟩ := heapFindFree_cases hwf.freeList (heapAlignUp (size + metaSize))
    · exact absurd (hsmall sg.base ((hlist _).mpr ⟨sg, hsg, rfl⟩)) (Nat.not_lt.mpr htotal)
    · have hserved : ServedBy w.heap size b :=
        ⟨by omega, by unfold metaSize heapAlign; omega, hwf.freeList.ne_zero hb, _, hfound⟩
      obtain ⟨-, s, blocks', fl', hcall, hcarved⟩ := kmalloc_carved hwf hserved
      exact ⟨s, b + metaSize, hcall, by unfold metaSize; omega, hcarved.kept.segments, hcarved.kept.pages⟩

/-- Three blocks freed in another order, and then all 16 pages asked for. -/
theorem all_freed_three : ∃ w, heapSystem.ReachableIf Sound w ∧ w.heap.segments = [⟨0x101000, 0x111000⟩] ∧
    w.heap.size 0x101000 = 65536 ∧ ∃ s p, kmalloc 65520 w.heap = some (s, p) ∧ p ≠ 0 ∧ s.pages = w.heap.pages := by
  obtain ⟨w, -, hw, hp⟩ := System.exists_reachableIf Sound bootWorld_init
    [.heapInit, .kmalloc 100, .kmalloc 200, .kmalloc 50, .kfree 0x101010, .kfree 0x101160, .kfree 0x101088]
    (fun w => w.live = [] ∧ w.heap.segments = [⟨0x101000, 0x111000⟩]) (by decide +kernel)
  obtain ⟨hlive, hsegs⟩ := of_decide_eq_true hp
  obtain ⟨hone, -, hserves⟩ := all_freed hw hlive
  obtain ⟨-, hsize⟩ := hone ⟨0x101000, 0x111000⟩ (by rw [hsegs]; exact List.mem_singleton_self _)
  obtain ⟨s, p, hcall, hp0, -, hpages⟩ := hserves 65520 (by decide)
    ⟨⟨0x101000, 0x111000⟩, by rw [hsegs]; exact List.mem_singleton_self _, by decide⟩
  exact ⟨w, hw, hsegs, Nat.add_left_cancel (n := 0x101000) hsize, s, p, hcall, hp0, hpages⟩

end

end Novium.Mm
