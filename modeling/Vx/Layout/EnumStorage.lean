import Vx.Lib.Align

namespace Vx.Layout

open List Option
open Lib.Align

structure EnumPayloadSlot where
  offset : ℕ
  size : ℕ
  align : ℕ
deriving DecidableEq

structure EnumStorageLayout where
  size : ℕ
  align : ℕ
  slots : List EnumPayloadSlot
deriving DecidableEq

def checkedAdd (a b : ℕ) : Option ℕ := if a + b < 2 ^ 64 then some (a + b) else none

def checkedAlignUp (size align : ℕ) : Option ℕ :=
  if isPowerOfTwo align then (checkedAdd size (align - 1)).map (· &&& (2 ^ 64 - 1 - (align - 1))) else none

def widen (field : ℕ) (need : ℕ × ℕ) (variant : List (ℕ × ℕ)) : Option (ℕ × ℕ) :=
  match variant[field]? with
  | some (s, a) => if isPowerOfTwo a then some (max need.1 s, max need.2 a) else none
  | none => some need

def placeSlot (variants : List (List (ℕ × ℕ))) (result : EnumStorageLayout) (field : ℕ) : Option EnumStorageLayout := do
  let (size, align) ← variants.foldlM (widen field) (0, 1)
  let size ← checkedAlignUp size align
  let offset ← checkedAlignUp result.size align
  let stop ← checkedAdd offset size
  return ⟨stop, max result.align align, result.slots ++ [⟨offset, size, align⟩]⟩

def positions (variants : List (List (ℕ × ℕ))) : ℕ := (variants.map List.length).foldl max 0

def enumStorageLayout (variants : List (List (ℕ × ℕ))) : Option EnumStorageLayout := do
  let result ← (List.range (positions variants)).foldlM (placeSlot variants) ⟨4, 4, []⟩
  let size ← checkedAlignUp result.size result.align
  return { result with size }

/-! The same storage over the unbounded numbers. -/

section
variable (variants : List (List (ℕ × ℕ)))

def payloads (field : ℕ) : List (ℕ × ℕ) := variants.filterMap (·[field]?)

def needSize (field : ℕ) : ℕ := ((payloads variants field).map Prod.fst).foldl max 0

def needAlign (field : ℕ) : ℕ := ((payloads variants field).map Prod.snd).foldl max 1

def slotEnd : ℕ → ℕ
  | 0 => 4
  | field + 1 =>
    roundUp (slotEnd field) (needAlign variants field) + roundUp (needSize variants field) (needAlign variants field)

def enumAlign (field : ℕ) : ℕ := ((List.range field).map (needAlign variants)).foldl max 4

def slot (field : ℕ) : EnumPayloadSlot where
  offset := roundUp (slotEnd variants field) (needAlign variants field)
  size := roundUp (needSize variants field) (needAlign variants field)
  align := needAlign variants field

def slotSums (field : ℕ) : List ℕ :=
  [needSize variants field + (needAlign variants field - 1), slotEnd variants field + (needAlign variants field - 1),
    slotEnd variants (field + 1)]

def sizeSums : List ℕ :=
  (List.range (positions variants)).flatMap (slotSums variants) ++
    [slotEnd variants (positions variants) + (enumAlign variants (positions variants) - 1)]

def ValidAt (field : ℕ) : Prop := ∀ p ∈ payloads variants field, ∃ k, p.2 = 2 ^ k

variable {l : List ℕ} {init x : ℕ}

theorem init_le_foldl_max : init ≤ l.foldl max init := by
  induction l generalizing init with
  | nil => exact le_rfl
  | cons y l ih => exact (le_max_left init y).trans ih

theorem le_foldl_max (hx : x ∈ l) : x ≤ l.foldl max init := by
  induction l generalizing init with
  | nil => cases hx
  | cons y l ih =>
    rcases List.mem_cons.mp hx with rfl | hx
    · exact (le_max_right init x).trans init_le_foldl_max
    · exact ih hx

theorem foldl_max_powerOfTwo (hinit : ∃ k, init = 2 ^ k) (hl : ∀ y ∈ l, ∃ k, y = 2 ^ k) :
    ∃ k, l.foldl max init = 2 ^ k := by
  induction l generalizing init with
  | nil => exact hinit
  | cons y l ih =>
    exact ih (max_powerOfTwo hinit (hl y mem_cons_self)) fun z hz => hl z (mem_cons_of_mem _ hz)

variable {variants : List (List (ℕ × ℕ))} {field : ℕ}

theorem needAlign_powerOfTwo (h : ValidAt variants field) : ∃ k, needAlign variants field = 2 ^ k := by
  apply foldl_max_powerOfTwo ⟨0, rfl⟩
  intro a ha
  obtain ⟨p, hp, rfl⟩ := List.mem_map.mp ha
  exact h p hp

theorem needAlign_pos : 0 < needAlign variants field := init_le_foldl_max

theorem checkedAlignUp_eq {size align : ℕ} (halign : ∃ k, align = 2 ^ k) :
    checkedAlignUp size align = if size + (align - 1) < 2 ^ 64 then some (roundUp size align) else none := by
  rw [checkedAlignUp, if_pos (isPowerOfTwo_iff.mpr halign), checkedAdd]
  by_cases hlt : size + (align - 1) < 2 ^ 64
  · obtain ⟨k, rfl⟩ := halign
    have hk : k ≤ 64 := by
      apply (Nat.pow_le_pow_iff_right (a := 2) (by decide)).mp
      omega
    rw [if_pos hlt, if_pos hlt, map_some, and_mask hlt hk, roundUp]
  · rw [if_neg hlt, if_neg hlt, map_none]

open Classical in
theorem foldlM_widen (need : ℕ × ℕ) : variants.foldlM (widen field) need = if ValidAt variants field then
      some (((payloads variants field).map Prod.fst).foldl max need.1,
        ((payloads variants field).map Prod.snd).foldl max need.2) else none := by
  induction variants generalizing need with
  | nil => simp [ValidAt, payloads]
  | cons variant variants ih =>
    rw [foldlM_cons]
    cases hvariant : variant[field]? with
    | none =>
      have hpayloads : payloads (variant :: variants) field = payloads variants field := by
        simp [payloads, hvariant]
      have hvalid : ValidAt (variant :: variants) field ↔ ValidAt variants field := by
        rw [ValidAt, ValidAt, hpayloads]
      simp only [widen, hvariant, hvalid, hpayloads]
      exact ih need
    | some p =>
      have hpayloads : payloads (variant :: variants) field = p :: payloads variants field := by
        simp [payloads, hvariant]
      by_cases hp : isPowerOfTwo p.2 = true
      · have hvalid : ValidAt (variant :: variants) field ↔ ValidAt variants field := by
          simp [ValidAt, hpayloads, isPowerOfTwo_iff.mp hp]
        simp only [widen, hvariant, if_pos hp, hvalid, hpayloads, map_cons, foldl_cons]
        exact ih _
      · have hinvalid : ¬ ValidAt (variant :: variants) field := fun h =>
          hp (isPowerOfTwo_iff.mpr (h p (by simp [hpayloads])))
        simp [widen, hvariant, hp, hinvalid]

def Fits (variants : List (List (ℕ × ℕ))) (field : ℕ) : Prop :=
  ValidAt variants field ∧ ∀ s ∈ slotSums variants field, s < 2 ^ 64

theorem fits_iff : Fits variants field ↔ ValidAt variants field ∧
    needSize variants field + (needAlign variants field - 1) < 2 ^ 64 ∧
      slotEnd variants field + (needAlign variants field - 1) < 2 ^ 64 ∧ slotEnd variants (field + 1) < 2 ^ 64 := by
  simp only [Fits, slotSums, mem_cons, not_mem_nil, or_false, forall_eq_or_imp, forall_eq]

def laidTo (variants : List (List (ℕ × ℕ))) (field : ℕ) : EnumStorageLayout :=
  ⟨slotEnd variants field, enumAlign variants field, (List.range field).map (slot variants)⟩

open Classical in
theorem placeSlot_laidTo (field : ℕ) : placeSlot variants (laidTo variants field) field =
    if Fits variants field then some (laidTo variants (field + 1)) else none := by
  unfold placeSlot
  rw [foldlM_widen]
  by_cases hvalid : ValidAt variants field
  · have halign := needAlign_powerOfTwo hvalid
    rw [if_pos hvalid]
    change ((checkedAlignUp (needSize variants field) (needAlign variants field)).bind fun size =>
      (checkedAlignUp (slotEnd variants field) (needAlign variants field)).bind fun offset =>
      (checkedAdd offset size).bind fun stop =>
      some (EnumStorageLayout.mk stop (max (enumAlign variants field) (needAlign variants field))
        ((List.range field).map (slot variants) ++ [⟨offset, size, needAlign variants field⟩]))) = _
    have hlaid : laidTo variants (field + 1) = ⟨slotEnd variants (field + 1),
        max (enumAlign variants field) (needAlign variants field),
        (List.range field).map (slot variants) ++ [slot variants field]⟩ := by
      simp [laidTo, enumAlign, range_succ]
    rw [checkedAlignUp_eq halign, checkedAlignUp_eq halign]
    have hadd : checkedAdd (roundUp (slotEnd variants field) (needAlign variants field))
        (roundUp (needSize variants field) (needAlign variants field)) =
        if slotEnd variants (field + 1) < 2 ^ 64 then some (slotEnd variants (field + 1)) else none := rfl
    by_cases hsize : needSize variants field + (needAlign variants field - 1) < 2 ^ 64
    · by_cases hstart : slotEnd variants field + (needAlign variants field - 1) < 2 ^ 64
      · rw [if_pos hsize, if_pos hstart, bind_some, bind_some, hadd]
        by_cases hstop : slotEnd variants (field + 1) < 2 ^ 64
        · rw [if_pos hstop, if_pos (fits_iff.mpr ⟨hvalid, hsize, hstart, hstop⟩), hlaid]
          rfl
        · rw [if_neg hstop, if_neg fun h => hstop (fits_iff.mp h).2.2.2]
          rfl
      · rw [if_pos hsize, if_neg hstart, if_neg fun h => hstart (fits_iff.mp h).2.2.1]
        rfl
    · rw [if_neg hsize, if_neg fun h => hsize (fits_iff.mp h).2.1]
      rfl
  · rw [if_neg hvalid, if_neg fun h => hvalid h.1]
    rfl

open Classical in
theorem foldlM_placeSlot (n : ℕ) : (List.range n).foldlM (placeSlot variants) ⟨4, 4, []⟩ =
    if ∀ field < n, Fits variants field then some (laidTo variants n) else none := by
  induction n with
  | zero => simp [laidTo, slotEnd, enumAlign]
  | succ n ih =>
    rw [range_succ, foldlM_append, ih]
    by_cases hn : ∀ field < n, Fits variants field
    · have hall : (∀ field < n + 1, Fits variants field) ↔ Fits variants n := by
        constructor
        · exact fun h => h n (Nat.lt_succ_self n)
        intro h field hfield
        rcases Nat.lt_succ_iff_lt_or_eq.mp hfield with hlt | rfl
        · exact hn field hlt
        · exact h
      rw [if_pos hn]
      simp only [bind_eq_bind, bind_some, foldlM_cons, foldlM_nil, placeSlot_laidTo, hall]
      by_cases hlast : Fits variants n
      · rw [if_pos hlast]
        rfl
      · rw [if_neg hlast]
        rfl
    · rw [if_neg hn, if_neg fun h => hn fun field hfield => h field (by omega)]
      rfl

theorem enumAlign_powerOfTwo {n : ℕ} (h : ∀ field < n, ValidAt variants field) : ∃ k, enumAlign variants n = 2 ^ k := by
  apply foldl_max_powerOfTwo ⟨2, rfl⟩
  intro a ha
  obtain ⟨field, hfield, rfl⟩ := List.mem_map.mp ha
  exact needAlign_powerOfTwo (h field (List.mem_range.mp hfield))

end

section

structure Placed (variants : List (List (ℕ × ℕ))) (layout : EnumStorageLayout) : Prop where
  length : layout.slots.length = positions variants
  after_tag : ∀ s ∈ layout.slots, 4 ≤ s.offset
  apart : layout.slots.Pairwise fun s t => s.offset + s.size ≤ t.offset
  serves : ∀ variant ∈ variants, ∀ (field : ℕ) (p : ℕ × ℕ), variant[field]? = some p →
    ∃ s, layout.slots[field]? = some s ∧ p.2 ∣ s.offset ∧ p.1 ≤ s.size
  within : ∀ s ∈ layout.slots, s.offset + s.size ≤ layout.size
  size : layout.align ∣ layout.size
  tag : 4 ∣ layout.align
  align : ∀ variant ∈ variants, ∀ p ∈ variant, p.2 ∣ layout.align

variable {variants : List (List (ℕ × ℕ))} {field : ℕ}

theorem slotEnd_le : slotEnd variants field ≤ (slot variants field).offset := le_roundUp needAlign_pos _

theorem slotEnd_mono {i j : ℕ} (h : i ≤ j) : slotEnd variants i ≤ slotEnd variants j := by
  induction h with
  | refl => exact le_rfl
  | step _ ih => exact ih.trans (slotEnd_le.trans (Nat.le_add_right _ _))

variable {variant : List (ℕ × ℕ)} {p : ℕ × ℕ}

theorem lt_positions (hvariant : variant ∈ variants) (hp : variant[field]? = some p) : field < positions variants := by
  apply (List.getElem?_eq_some_iff.mp hp).1.trans_le
  exact le_foldl_max (List.mem_map_of_mem hvariant)

theorem mem_payloads (hvariant : variant ∈ variants)
    (hp : variant[field]? = some p) : p ∈ payloads variants field := List.mem_filterMap.mpr ⟨variant, hvariant, hp⟩

theorem placed_laidTo (h : ∀ field < positions variants, ValidAt variants field) :
    Placed variants { laidTo variants (positions variants) with
      size := roundUp (slotEnd variants (positions variants)) (enumAlign variants (positions variants)) } := by
  have halign := enumAlign_powerOfTwo h
  have hpos : 0 < enumAlign variants (positions variants) := (show 0 < 4 by decide).trans_le init_le_foldl_max
  have hmem : ∀ s ∈ (List.range (positions variants)).map (slot variants), ∃ field < positions variants,
      s = slot variants field := by
    intro s hs
    obtain ⟨field, hfield, rfl⟩ := List.mem_map.mp hs
    exact ⟨field, List.mem_range.mp hfield, rfl⟩
  refine ⟨by simp [laidTo], ?_, ?_, ?_, ?_, dvd_roundUp _ _, ?_, ?_⟩
  · intro s hs
    obtain ⟨field, -, rfl⟩ := hmem s hs
    exact (slotEnd_mono (Nat.zero_le field)).trans slotEnd_le
  · apply List.pairwise_map.mpr
    apply List.pairwise_lt_range.imp
    intro i j hij
    exact (slotEnd_mono (Nat.succ_le_of_lt hij)).trans slotEnd_le
  · intro variant hvariant field p hp
    have hlt := lt_positions hvariant hp
    have hp := mem_payloads hvariant hp
    refine ⟨slot variants field, by simp [laidTo, hlt], ?_, ?_⟩
    · apply Nat.dvd_trans _ (dvd_roundUp _ _)
      exact dvd_of_le (h field hlt p hp) (needAlign_powerOfTwo (h field hlt)) (le_foldl_max (List.mem_map_of_mem hp))
    · exact (le_foldl_max (List.mem_map_of_mem hp)).trans (le_roundUp needAlign_pos _)
  · intro s hs
    obtain ⟨field, hfield, rfl⟩ := hmem s hs
    exact le_trans (slotEnd_mono (Nat.succ_le_of_lt hfield)) (le_roundUp hpos _)
  · exact dvd_of_le ⟨2, rfl⟩ halign init_le_foldl_max
  · intro variant hvariant p hp
    obtain ⟨field, hfield⟩ := mem_iff_getElem?.mp hp
    have hlt := lt_positions hvariant hfield
    have hp := mem_payloads hvariant hfield
    apply dvd_of_le (h field hlt p hp) halign
    apply (le_foldl_max (List.mem_map_of_mem hp)).trans
    exact le_foldl_max (List.mem_map_of_mem (List.mem_range.mpr hlt))

theorem validAt_iff : (∀ field < positions variants, ValidAt variants field) ↔
    ∀ variant ∈ variants, ∀ p ∈ variant, ∃ k, p.2 = 2 ^ k := by
  constructor
  · intro h variant hvariant p hp
    obtain ⟨field, hfield⟩ := mem_iff_getElem?.mp hp
    exact h field (lt_positions hvariant hfield) p (mem_payloads hvariant hfield)
  · intro h field _ p hp
    obtain ⟨variant, hvariant, hp⟩ := List.mem_filterMap.mp hp
    exact h variant hvariant p (mem_of_getElem? hp)

end

/-- There is a layout exactly when each alignment is a power of two and each sum of the computation is below `2 ^ 64`;
then the slots serve every variant. -/
theorem enum_storage_layout_spec (variants : List (List (ℕ × ℕ))) :
    ((enumStorageLayout variants).isSome ↔
      (∀ variant ∈ variants, ∀ p ∈ variant, ∃ k, p.2 = 2 ^ k) ∧ ∀ s ∈ sizeSums variants, s < 2 ^ 64) ∧
      ∀ layout, enumStorageLayout variants = some layout → Placed variants layout := by
  classical
  have hsums : (∀ s ∈ sizeSums variants, s < 2 ^ 64) ↔
      (∀ field < positions variants, ∀ s ∈ slotSums variants field, s < 2 ^ 64) ∧
        slotEnd variants (positions variants) + (enumAlign variants (positions variants) - 1) < 2 ^ 64 := by
    simp only [sizeSums, mem_append, mem_flatMap, mem_range, List.mem_singleton]
    constructor
    · intro h
      exact ⟨fun field hfield s hs => h s (.inl ⟨field, hfield, hs⟩), h _ (.inr rfl)⟩
    · rintro ⟨hslots, hlast⟩ s (⟨field, hfield, hs⟩ | rfl)
      · exact hslots field hfield s hs
      · exact hlast
  have hfits : (∀ field < positions variants, Fits variants field) ↔
      (∀ field < positions variants, ValidAt variants field) ∧
        ∀ field < positions variants, ∀ s ∈ slotSums variants field, s < 2 ^ 64 :=
    ⟨fun h => ⟨fun field hfield => (h field hfield).1, fun field hfield => (h field hfield).2⟩,
      fun h field hfield => ⟨h.1 field hfield, h.2 field hfield⟩⟩
  rw [hsums, ← validAt_iff, ← and_assoc, ← hfits, enumStorageLayout, foldlM_placeSlot]
  by_cases hall : ∀ field < positions variants, Fits variants field
  · have hvalid := (hfits.mp hall).1
    rw [if_pos hall]
    simp only [bind_eq_bind, bind_some, laidTo, checkedAlignUp_eq (enumAlign_powerOfTwo hvalid)]
    by_cases hlast : slotEnd variants (positions variants) + (enumAlign variants (positions variants) - 1) < 2 ^ 64
    · rw [if_pos hlast]
      refine ⟨iff_of_true rfl ⟨hall, hlast⟩, ?_⟩
      intro layout hlayout
      cases hlayout
      exact placed_laidTo hvalid
    · rw [if_neg hlast]
      exact ⟨iff_of_false Bool.false_ne_true fun h => hlast h.2, fun _ h => nomatch h⟩
  · simp [hall]

example : enumStorageLayout [[(1, 1), (12, 4)], [(2, 2), (8, 8)]] = some ⟨24, 8, [⟨4, 2, 2⟩, ⟨8, 16, 8⟩]⟩ := by
  decide

end Vx.Layout
