import Novium.Mm.PageFit
import Novium.Mm.PageMap

/-! Who holds which pages. The pages that are free after boot are divided at all times
into those still free and those held by callers, each by one of them; and what is
free after boot is memory that the map offers and nobody else uses, unless the walk over
the map has left it. -/

namespace Novium.Mm

open Novium.Lib

/-- Each held page with the caller that holds it. -/
structure Holdings where
  pages : Pages
  held : List (ℕ × ℕ)

namespace Holdings

def heldPages (w : Holdings) : List ℕ := w.held.map Prod.snd

def next (w : Holdings) (caller : ℕ) (c : PageCall) : Holdings :=
  ⟨(c.run w.pages).1,
    (runPages ((c.run w.pages).2.getD 0) c.wants).map (caller, ·) ++ w.held.filter (·.2 ∉ c.gives)⟩

def system : System Holdings (ℕ × PageCall) where
  init w := pageSystem.init w.pages ∧ w.held = []
  next w e := some (w.next e.1 e.2)

/-- A caller frees only pages that it holds. -/
def FreesOwn (w : Holdings) (e : ℕ × PageCall) : Prop := ∀ q ∈ e.2.gives, (e.1, q) ∈ w.held

instance (w : Holdings) (e : ℕ × PageCall) : Decidable (FreesOwn w e) :=
  inferInstanceAs (Decidable (∀ q ∈ _, _))

/-- The pages free in `ps₀` are divided between the bitmap and the callers. -/
structure Divides (ps₀ : Pages) (w : Holdings) : Prop where
  tallied : Tallied w.pages
  nodup : w.heldPages.Nodup
  used : ∀ q ∈ w.heldPages, w.pages.free q = false
  all : ∀ q, ps₀.free q = true ↔ w.pages.free q = true ∨ q ∈ w.heldPages

variable {ps₀ : Pages} {w : Holdings}

theorem Divides.held_free (h : Divides ps₀ w) {q : ℕ} (hq : q ∈ w.heldPages) : ps₀.free q = true :=
  (h.all q).mpr (.inr hq)

theorem mem_heldPages {p : ℕ × ℕ} (h : p ∈ w.held) : p.2 ∈ w.heldPages := List.mem_map_of_mem h

theorem Divides.took (h : Divides ps₀ w) {ps' : Pages} {addr count caller : ℕ} (ht : Tallied ps') (h0 : addr ≠ 0)
    (htook : Took w.pages ps' addr count) :
    Divides ps₀ ⟨ps', (runPages addr count).map (caller, ·) ++ w.held⟩ := by
  have hpages : Holdings.heldPages ⟨ps', (runPages addr count).map (caller, ·) ++ w.held⟩ =
      runPages addr count ++ w.heldPages := by
    simp [heldPages, Function.comp_def]
  have hmem : ∀ q, q ∈ runPages addr count ↔ addr / pageSize ≤ q ∧ q < addr / pageSize + count := by
    intro q
    rw [mem_runPages]
    exact and_iff_right h0
  have hwere : ∀ q ∈ runPages addr count, w.pages.free q = true := fun q hq =>
    htook.were q ((hmem q).mp hq).1 ((hmem q).mp hq).2
  have hfree : ∀ q, ps'.free q = true ↔ w.pages.free q = true ∧ q ∉ runPages addr count := by
    intro q
    rw [htook.free, hmem]
    split_ifs with hq <;> simp [hq]
  refine ⟨ht, ?_, fun q hq => ?_, fun q => ?_⟩
  · rw [hpages, List.nodup_append']
    refine ⟨?_, h.nodup, fun q hq hheld => ?_⟩
    · unfold runPages
      split_ifs
      · exact List.nodup_nil
      · exact List.nodup_range'
    · have hwas := hwere q hq
      rw [h.used q hheld] at hwas
      cases hwas
  · rw [hpages, List.mem_append] at hq
    rw [Bool.eq_false_iff, Ne, hfree]
    rintro ⟨hf, hno⟩
    rcases hq with hq | hq
    · exact hno hq
    · rw [h.used q hq] at hf; cases hf
  · rw [h.all, hpages, List.mem_append, hfree]
    by_cases hq : q ∈ runPages addr count
    · simp [hq, hwere q hq]
    · simp [hq]

theorem Divides.gave (h : Divides ps₀ w) {ps' : Pages} {pages : List ℕ} (ht : Tallied ps')
    (hown : ∀ q ∈ pages, q ∈ w.heldPages) (hiff : ∀ q, ps'.free q = true ↔ w.pages.free q = true ∨ q ∈ pages) :
    Divides ps₀ ⟨ps', w.held.filter (·.2 ∉ pages)⟩ := by
  have hmem : ∀ q, q ∈ Holdings.heldPages ⟨ps', w.held.filter (·.2 ∉ pages)⟩ ↔ q ∈ w.heldPages ∧ q ∉ pages := by
    intro q
    simp only [heldPages, List.mem_map, List.mem_filter, decide_eq_true_eq]
    constructor
    · rintro ⟨p, ⟨hp, hno⟩, rfl⟩
      exact ⟨⟨p, hp, rfl⟩, hno⟩
    · rintro ⟨⟨p, hp, rfl⟩, hno⟩
      exact ⟨p, ⟨hp, hno⟩, rfl⟩
  refine ⟨ht, ?_, fun q hq => ?_, fun q => ?_⟩
  · exact h.nodup.sublist (List.filter_sublist.map Prod.snd)
  · obtain ⟨hheld, hno⟩ := (hmem q).mp hq
    rw [Bool.eq_false_iff, Ne, hiff, h.used q hheld]
    simp [hno]
  · rw [h.all, hiff, hmem]
    by_cases hq : q ∈ pages
    · simp [hq, hown q hq]
    · simp [hq]

theorem Divides.step (h : Divides ps₀ w) (h₀ : Tallied ps₀) (hzero : ps₀.free 0 = false) {caller : ℕ} {c : PageCall}
    (hown : FreesOwn w (caller, c)) : Divides ps₀ (w.next caller c) := by
  have ht := c.tallied h.tallied
  have hall : w.held.filter (fun p => decide (p.2 ∉ ([] : List ℕ))) = w.held := by simp
  rcases c.run_cases w.pages with ⟨hc, hg⟩ | ⟨ps', addr, hc, htook, hg⟩ | ⟨ps', hc, hgave⟩
  · rw [next, hc, hg, hall]
    exact h
  · have haddr : addr ≠ 0 := by
      rintro rfl
      have hfree := htook.were 0 (by simp) (by simpa using htook.pos)
      have := (h.all 0).mpr (.inl hfree)
      rw [hzero] at this
      cases this
    rw [hc] at ht
    rw [next, hc, hg, hall]
    exact h.took ht haddr htook
  · have hheld : ∀ q ∈ c.gives, q ∈ w.heldPages := fun q hq => mem_heldPages (hown q hq)
    rw [hc] at ht
    rw [next, hc]
    rcases hgave with ⟨-, q, hq, hle⟩ | hiff
    · -- a page that does not exist is nobody's
      have := h₀.above q (h.held_free (hheld q hq))
      omega
    · exact h.gave ht hheld hiff

/-- Nothing is lost: the held pages and the free ones are as many as at boot. -/
theorem Divides.conserved (h : Divides ps₀ w) (h₀ : Tallied ps₀) :
    w.held.length + w.pages.freePages = ps₀.freePages := by
  have hsplit : freeSet ps₀ = freeSet w.pages ∪ w.heldPages.toFinset := by
    ext q
    rw [Finset.mem_union, mem_freeSet, mem_freeSet, List.mem_toFinset, h.all]
    have hlt : q ∈ w.heldPages → q < pageCount := fun hq => h₀.above q (h.held_free hq)
    tauto
  have hdisj : Disjoint (freeSet w.pages) w.heldPages.toFinset := by
    rw [Finset.disjoint_left]
    intro q hf hq
    have := h.used q (List.mem_toFinset.mp hq)
    rw [(mem_freeSet.mp hf).2] at this
    cases this
  rw [h₀.count, hsplit, Finset.card_union_of_disjoint hdisj, List.toFinset_card_of_nodup h.nodup, ← h.tallied.count]
  simp [heldPages, Nat.add_comm]

theorem divides_init (h₀ : Tallied ps₀) : Divides ps₀ ⟨ps₀, []⟩ :=
  ⟨h₀, List.nodup_nil, fun q hq => absurd hq List.not_mem_nil, fun q => by simp [heldPages]⟩

theorem leads_divides (h₀ : Tallied ps₀) (hzero : ps₀.free 0 = false)
    (h : system.Leads FreesOwn ⟨ps₀, []⟩ w) : Divides ps₀ w := by
  refine h.invariant ?_ (divides_init h₀)
  rintro w ⟨caller, c⟩ w' hd hown hn
  cases hn
  exact hd.step h₀ hzero hown

end Holdings

section

variable (bytes : ℕ → UInt8) (boot : BootInfo)

/-- The page lies wholly inside one available entry of the map. -/
def Offered (q : ℕ) : Prop :=
  ∃ offset, Walked bytes boot 0 offset ∧ EntryInside bytes boot offset ∧
    entryType bytes boot offset = multibootMemoryAvailable ∧ entryBase bytes boot offset ≤ q * pageSize ∧
    (q + 1) * pageSize ≤ entryBase bytes boot offset + entryLength bytes boot offset

/-- What the loop takes for entries behind the end of the map adds no page, from 1 MiB on and beside the kernel, that
the map does not offer. -/
def StraysOffered (kernelStart kernelEnd : ℕ) : Prop :=
  ∀ offset q, Strays bytes boot offset → (mapNext bytes boot offset).isSome → Provides bytes boot offset q →
    256 ≤ q → ¬Touches kernelStart kernelEnd q → Offered bytes boot q

end

variable {bytes : ℕ → UInt8} {kernelStart kernelEnd : ℕ}

theorem Usable.offered {b : BootInfo} {q : ℕ} (h : Usable bytes b 0 q) : Offered bytes b q := by
  obtain ⟨offset, hwalk, hin, htype, -, -, hlo, hhi⟩ := h
  exact ⟨offset, hwalk, hin, htype, hlo, by omega⟩

theorem straysOffered_of_below {b : BootInfo}
    (h : b.memoryMapAddr = 0 ∨ ∀ offset, Walked bytes b 0 offset → offset < 2 ^ 32 - 4) :
    StraysOffered bytes b kernelStart kernelEnd :=
  fun _ _ hs => absurd hs (not_strays h)

/-- A page that is free after boot is offered by the map, or it comes from behind the end of the map. -/
theorem pageAllocInit_offered {boot : Option BootInfo} {ps : Pages} {q : ℕ} (hk : kernelStart < kernelEnd)
    (hend : kernelEnd < 2 ^ 32) (hlen : ∀ b ∈ boot, b.memoryMapLength < 2 ^ 32)
    (h : pageAllocInit bytes kernelStart kernelEnd boot = some ps) (hq : ps.free q = true)
    (hstrays : ∀ b ∈ boot, StraysOffered bytes b kernelStart kernelEnd) : ∃ b ∈ boot, Offered bytes b q := by
  obtain ⟨hlow, hkernel, b, hb, off, hv, hsome, hprov⟩ := (pageAllocInit_frees hk hend h).mp hq
  refine ⟨b, hb, ?_⟩
  rcases hv.walked_or_strays (hlen b hb) with ⟨hwalk, htop⟩ | hstray
  · rcases mapNext_eq (hlen b hb) htop with ⟨hin, -⟩ | ⟨-, hstop⟩
    · exact Usable.offered ⟨off, hwalk, hin, hprov⟩
    · rw [hstop] at hsome
      cases hsome
  · exact hstrays b hb off q hstray hsome hprov hlow hkernel

theorem Holdings.exists_holder {ps : Pages} {q : ℕ} (ht : Tallied ps) (h0 : ps.free 0 = false) (hq : ps.free q = true) :
    ∃ w, Holdings.system.Leads Holdings.FreesOwn ⟨ps, []⟩ w ∧ q ∈ w.heldPages := by
  have hlt := ht.above q hq
  have hhint : q * pageSize / pageSize = q := Nat.mul_div_cancel q (by decide)
  have hfits := pageAllocPagesAt_fits (ht.count.trans (setBits_eq_card ps).symm) h0 (q * pageSize) 1
  rw [hhint] at hfits
  have hleast : IsLeast {start | q ≤ start ∧ RunFree ps 1 start} q := by
    refine ⟨⟨le_rfl, by omega, fun r hlo hhi => ?_⟩, fun start hs => hs.1⟩
    obtain rfl : r = q := by omega
    exact hq
  obtain ⟨haddr, hne, -⟩ := hfits.found q (by decide) hleast
  refine ⟨_, .tail (e := (1, .allocPagesAt (q * pageSize) 1)) .refl ?_ rfl, ?_⟩
  · intro r hr
    cases hr
  · refine List.mem_map.mpr ⟨(1, q), List.mem_append_left _ (List.mem_map.mpr ⟨q, ?_, rfl⟩), rfl⟩
    refine mem_runPages.mpr ⟨?_, ?_⟩
    · exact hne
    · simp only [PageCall.run, Option.getD_some, PageCall.wants, haddr]
      unfold pageSize
      omega

/-- From any boot on, as long as callers free what they hold: no page is held twice, none is below 1 MiB or the
kernel's, and the held pages and the free ones together stay as many as at boot. The held pages are inside available
entries of the map in every run if and only if nothing strays to other ones. -/
theorem pages_exclusive {boot : Option BootInfo} {ps₀ : Pages} (hk : kernelStart < kernelEnd) (hend : kernelEnd < 2 ^ 32)
    (hlen : ∀ b ∈ boot, b.memoryMapLength < 2 ^ 32)
    (hinit : pageAllocInit bytes kernelStart kernelEnd boot = some ps₀) :
    (∀ w, Holdings.system.Leads Holdings.FreesOwn ⟨ps₀, []⟩ w → w.heldPages.Nodup ∧
      (∀ q ∈ w.heldPages, 256 ≤ q ∧ ¬Touches kernelStart kernelEnd q) ∧
      w.held.length + w.pages.freePages = ps₀.freePages) ∧
    ((∀ w, Holdings.system.Leads Holdings.FreesOwn ⟨ps₀, []⟩ w → ∀ q ∈ w.heldPages, ∃ b ∈ boot, Offered bytes b q) ↔
      ∀ b ∈ boot, StraysOffered bytes b kernelStart kernelEnd) := by
  have h₀ := pageAllocInit_tallied hinit
  have hzero : ps₀.free 0 = false :=
    Bool.eq_false_iff.mpr fun hz => absurd (pageAllocInit_low hinit hz) (by decide)
  have hfrees := fun q => pageAllocInit_frees (q := q) hk hend hinit
  refine ⟨fun w h => ?_, fun h b hb off q hstray hsome hprov hlow hkernel => ?_, fun hstrays w h q hq => ?_⟩
  · have hd := Holdings.leads_divides h₀ hzero h
    refine ⟨hd.nodup, fun q hq => ?_, hd.conserved h₀⟩
    obtain ⟨hlow, hkernel, -⟩ := (hfrees q).mp (hd.held_free hq)
    exact ⟨hlow, hkernel⟩
  · have hfree : ps₀.free q = true :=
      (hfrees q).mpr ⟨hlow, hkernel, b, hb, off, hstray.visited (hlen b hb), hsome, hprov⟩
    obtain ⟨w, hw, hq⟩ := Holdings.exists_holder h₀ hzero hfree
    obtain ⟨b', hb', hoff⟩ := h w hw q hq
    obtain rfl : b = b' := Option.mem_unique hb hb'
    exact hoff
  · have hd := Holdings.leads_divides h₀ hzero h
    exact pageAllocInit_offered hk hend hlen hinit (hd.held_free hq) hstrays

/-- Two callers share 36 pages; the second has given back the middle of its run. -/
theorem pages_exclusive_two_callers :
    ∃ ps₀ w, bootPages = some ps₀ ∧ Holdings.system.Leads Holdings.FreesOwn ⟨ps₀, []⟩ w ∧
      w.held = [(2, 0x102), (2, 0x104), (1, 0x101)] ∧ w.heldPages.Nodup ∧ w.pages.freePages = 33 ∧
      ∀ q ∈ w.heldPages, Offered bootMap ⟨0x500, 24⟩ q := by
  obtain ⟨ps₀, hps₀⟩ : ∃ ps, bootPages = some ps := Option.isSome_iff_exists.mp (by decide +kernel)
  have heval : bootPages.all (fun ps₀ => ps₀.freePages = 36 ∧
      (Holdings.system.runIf Holdings.FreesOwn ⟨ps₀, []⟩
        [(1, .alloc), (2, .allocPages 3), (2, .free 0x103000), (1, .freePages 0x101001 2)]).map Holdings.held =
          some [(2, 0x102), (2, 0x104), (1, 0x101)]) = true := by decide +kernel
  rw [hps₀] at heval
  obtain ⟨hcount, hrun⟩ := of_decide_eq_true heval
  obtain ⟨w, hw, hheld⟩ := Option.map_eq_some_iff.mp hrun
  have hleads := System.Leads.runIf .refl hw
  have hbelow : ∀ offset, Walked bootMap ⟨0x500, 24⟩ 0 offset → offset < 2 ^ 32 - 4 := by
    intro offset hwalk
    have hle : offset ≤ 24 := hwalk.le (Nat.zero_le _)
    omega
  have hlen : ∀ b ∈ some (⟨0x500, 24⟩ : BootInfo), b.memoryMapLength < 2 ^ 32 := by
    rintro b ⟨⟩
    decide
  obtain ⟨hruns, hoffers⟩ := pages_exclusive (show 0x100000 < 0x101000 by decide) (by decide) hlen hps₀
  obtain ⟨hnodup, -, hcons⟩ := hruns w hleads
  have hstrays : ∀ b ∈ some ⟨0x500, 24⟩, StraysOffered bootMap b 0x100000 0x101000 := by
    rintro b ⟨⟩
    exact straysOffered_of_below (.inr hbelow)
  refine ⟨ps₀, w, hps₀, hleads, hheld, hnodup, ?_, fun q hq => ?_⟩
  · rw [hheld, hcount] at hcons
    exact Nat.add_left_cancel (n := 3) hcons
  · obtain ⟨b, hb, hoff⟩ := hoffers.mpr hstrays w hleads q hq
    cases hb
    exact hoff

/-- A map that ends just below the end of the address space, with two entries of reserved memory, the second up to its
end. The four bytes in front of it are a size, and behind them its first entry reads as 37 pages of available memory. -/
def strayMap (a : ℕ) : UInt8 :=
  match a with
  | 0x4fc => 0x14
  | 0x502 => 0x10
  | 0x509 => 0x50
  | 0x50a => 0x02
  | 0x510 => 0x01
  | 0x514 => 0x02
  | 0x100504 => 0xf4
  | 0x100505 | 0x100507 => 0xff
  | 0x100506 => 0xef
  | 0x100518 => 0x02
  | _ => 0

theorem strayMap_walked {offset : ℕ} (h : Walked strayMap ⟨0x500, 0xfffffffc⟩ 0 offset) :
    offset = 0 ∨ offset = 0x100004 ∨ offset = 0xfffffffc := by
  have hfirst : entrySize strayMap ⟨0x500, 0xfffffffc⟩ 0 = 0x100000 := by decide
  have hsecond : entrySize strayMap ⟨0x500, 0xfffffffc⟩ 0x100004 = 0xffeffff4 := by decide
  induction h with
  | start => exact .inl rfl
  | next _ hin ih =>
    rcases ih with rfl | rfl | rfl
    · rw [hfirst]
      exact .inr (.inl rfl)
    · rw [hsecond]
      exact .inr (.inr rfl)
    · have hover : 0xfffffffc + 4 + entrySize strayMap ⟨0x500, 0xfffffffc⟩ 0xfffffffc ≤ 0xfffffffc := hin.2
      omega

/-- The map offers nothing, and after boot 36 pages are free; one of them is handed out. -/
theorem pages_stray :
    (∀ q, ¬Offered strayMap ⟨0x500, 0xfffffffc⟩ q) ∧
    ∃ ps₀ w, pageAllocInit strayMap 0x100000 0x101000 (some ⟨0x500, 0xfffffffc⟩) = some ps₀ ∧ ps₀.freePages = 36 ∧
      Holdings.system.Leads Holdings.FreesOwn ⟨ps₀, []⟩ w ∧ w.held = [(1, 0x101)] := by
  constructor
  · rintro q ⟨offset, hwalk, hin, htype, -⟩
    rcases strayMap_walked hwalk with rfl | rfl | rfl
    · exact absurd htype (by decide)
    · exact absurd htype (by decide)
    · have hover : 0xfffffffc + 4 + entrySize strayMap ⟨0x500, 0xfffffffc⟩ 0xfffffffc ≤ 0xfffffffc := hin.2
      omega
  · have heval : ((pageAllocInit strayMap 0x100000 0x101000 (some ⟨0x500, 0xfffffffc⟩)).any fun ps₀ =>
        decide (ps₀.freePages = 36 ∧ (Holdings.system.runIf Holdings.FreesOwn ⟨ps₀, []⟩ [(1, .alloc)]).map Holdings.held =
          some [(1, 0x101)])) = true := by decide +kernel
    obtain ⟨ps₀, hps₀, hrun⟩ := (Option.any_eq_true _ _).mp heval
    obtain ⟨hcount, hrun⟩ := of_decide_eq_true hrun
    obtain ⟨w, hw, hheld⟩ := Option.map_eq_some_iff.mp hrun
    exact ⟨ps₀, w, hps₀, hcount, System.Leads.runIf .refl hw, hheld⟩

end Novium.Mm
