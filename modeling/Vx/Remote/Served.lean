import Vx.Remote.Agent
import Vx.Remote.Handles
import Vx.Remote.Rebuild

namespace Vx.Remote

open List Option Bool
open Function (update update_of_ne update_self)
open Lib.Strided (offset last)

def TaggedArg.HoldsBuffer (arg : TaggedArg) : Prop :=
  if abiIsSlot arg.tag then arg.handle ≠ 0 else abiKind arg.tag = abiKindMemref

instance (arg : TaggedArg) : Decidable arg.HoldsBuffer :=
  inferInstanceAs (Decidable (if abiIsSlot arg.tag then arg.handle ≠ 0 else abiKind arg.tag = abiKindMemref))

def TaggedArg.HasDesc (arg : TaggedArg) : Prop := abiIsSlot arg.tag ∨ abiKind arg.tag = abiKindMemref

def Contained (size start b : ℕ) (dims : List (ℤ × ℤ)) : Prop :=
  ∀ index, InView index dims → 0 ≤ elementOffset index dims ∧ start + elementOffset index dims * b + b ≤ size

def Served (t : Table) (s : Storage) (i : ℕ) (arg : TaggedArg) : Prop :=
  ∃ r start region dims, readDesc s i arg.tag = some (.data r start, .int 0, dims) ∧
    t.resolve arg.handle = some (r, start) ∧ t.regions[r]? = some region ∧ region.live ∧
      Contained region.size start arg.elem.bytes dims

def Alone (i : ℕ) (s s' : Storage) : Prop :=
  (∀ k, k < s.cursor ∨ s'.cursor ≤ k → s'.words k = s.words k) ∧ ∀ j ≠ i, s'.descPtrs j = s.descPtrs j

def TaggedArg.RanksAgree (arg : TaggedArg) : Prop :=
  abiIsSlot arg.tag → arg.handle ≠ 0 → arg.rank = abiRank arg.tag ∨ 2 * arg.rank ≤ abiRank arg.tag

section
variable {words : ℕ → Word} {start k : ℕ} {run : List Word}

theorem overlay_below (h : k < start) : overlay words start run k = words k := by rw [overlay, if_pos h]

theorem overlay_above (h : start + run.length ≤ k) : overlay words start run k = words k := by
  rw [overlay, if_neg (by omega), List.getElem?_eq_none (by omega), getD_none]

theorem overlay_add (words : ℕ → Word) (start k : ℕ) (run : List Word) :
    overlay words start run (start + k) = (run[k]?).getD (words (start + k)) := by
  rw [overlay, if_neg (by omega), Nat.add_sub_cancel_left]

variable {arg : TaggedArg}

theorem TaggedArg.Formed.run_length (h : arg.Formed) (data : Word) :
    ([data, data, .int 0] ++ arg.sizes.map Word.int ++ arg.strides.map Word.int).length = descWords arg.rank := by
  simp only [length_append, length_cons, length_nil, length_map, h.sizes_length, h.strides_length, descWords]
  omega

theorem writeDesc_below {data : Word} (h : k < start) : writeDesc words start data arg k = words k := overlay_below h

theorem writeDesc_above {data : Word} (harg : arg.Formed) (h : start + descWords arg.rank ≤ k) :
    writeDesc words start data arg k = words k := by
  apply overlay_above
  rw [harg.run_length data]
  exact h

variable {held : ℕ}

theorem slotWords_below (h : k < start) : slotWords words start held k = words k := by
  rw [slotWords, overlay_below (by omega), overlay_below h]

theorem slotWords_above (h : start + descWords held + descWords 0 ≤ k) : slotWords words start held k = words k := by
  rw [slotWords, overlay_above, overlay_above]
  · rw [length_replicate]
    omega
  · simp only [length_cons, length_nil]
    simp only [descWords] at h ⊢
    omega

theorem slotWords_inner (h : k < descWords held) : slotWords words start held (start + k) = .int 0 := by
  rw [slotWords, overlay_below (by omega), overlay_add, List.getElem?_replicate, if_pos (by omega), getD_some]

theorem slotWords_outer (held : ℕ) : slotWords words start held (start + descWords held + 1) = .place start := by
  rw [slotWords, overlay_add]
  rfl

def dimsAt (r : ℕ) (fields : List ℤ) : List (ℤ × ℤ) :=
  (List.range r).map fun d => (fields.getD d 0, fields.getD (r + d) 0)

theorem mapM_congr {α β : Type} {f g : α → Option β} {l : List α} (h : ∀ x ∈ l, f x = g x) : l.mapM f = l.mapM g := by
  induction l with
  | nil => rfl
  | cons x l ih => rw [mapM_cons, mapM_cons, h x mem_cons_self, ih fun y hy => h y (mem_cons_of_mem _ hy)]

theorem readDims_eq {words : ℕ → Word} {desc r : ℕ} {fields : List ℤ}
    (h : ∀ k < 2 * r, words (desc + 3 + k) = .int (fields.getD k 0)) :
    readDims words desc r = some (dimsAt r fields) := by
  have hdim : ∀ d ∈ List.range r, readDim words desc r d = some (fields.getD d 0, fields.getD (r + d) 0) := by
    intro d hd
    rw [mem_range] at hd
    rw [readDim, h d (by omega), Nat.add_assoc (desc + 3) r d, h (r + d) (by omega)]
  rw [readDims, mapM_congr hdim]
  exact mapM_pure

variable {start r k : ℕ} {data : Word}

theorem writeDesc_data (words : ℕ → Word) (start : ℕ) (data : Word) (arg : TaggedArg) :
    writeDesc words start data arg (start + 1) = data := by
  rw [writeDesc, overlay_add]
  rfl

theorem writeDesc_offset (words : ℕ → Word) (start : ℕ) (data : Word) (arg : TaggedArg) :
    writeDesc words start data arg (start + 2) = .int 0 := by
  rw [writeDesc, overlay_add]
  rfl

theorem writeDesc_field (harg : arg.Formed) (hzero : 2 * arg.rank ≤ k → words (start + 3 + k) = .int 0) :
    writeDesc words start data arg (start + 3 + k) = .int ((arg.sizes ++ arg.strides).getD k 0) := by
  have hrun : ([data, data, .int 0] ++ arg.sizes.map Word.int ++ arg.strides.map Word.int)[3 + k]? =
      (arg.sizes ++ arg.strides)[k]?.map Word.int := by
    rw [append_assoc, ← map_append, List.getElem?_append_right (by simp), ← List.getElem?_map]
    congr 1
    simp
  rw [writeDesc, Nat.add_assoc, overlay_add, hrun, getD_eq_getElem?_getD]
  rcases Nat.lt_or_ge k (arg.sizes ++ arg.strides).length with hk | hk
  · rw [List.getElem?_eq_getElem hk]
    rfl
  · rw [List.getElem?_eq_none hk, map_none, getD_none, getD_none, ← Nat.add_assoc]
    rw [length_append, harg.sizes_length, harg.strides_length] at hk
    exact hzero (by omega)

theorem readDesc_eq {s : Storage} {i tag desc : ℕ} {dims : List (ℤ × ℤ)} (hoperand : operandDesc s i tag = some desc)
    (hdims : readDims s.words desc (abiRank tag) = some dims) :
    readDesc s i tag = some (s.words (desc + 1), s.words (desc + 2), dims) := by
  simp [readDesc, hoperand, hdims]

theorem readDims_writeDesc (harg : arg.Formed)
    (hzero : ∀ k, 2 * arg.rank ≤ k → k < 2 * r → words (start + 3 + k) = .int 0) :
    readDims (writeDesc words start data arg) start r = some (dimsAt r (arg.sizes ++ arg.strides)) :=
  readDims_eq fun k hk => writeDesc_field harg fun hle => hzero k hle hk

variable {dims : List (ℤ × ℤ)} {index : List ℕ}

theorem contained_of_span {elem : Dtype} {bytes size start : ℕ} (hspan : memrefViewSpan dims elem = .ok bytes)
    (hbytes : bytes ≤ size - start) (hstart : start < size) : Contained size start elem.bytes dims := by
  intro index hindex
  rw [inView_iff] at hindex
  obtain ⟨-, hnonneg, ⟨-, hempty⟩ | ⟨-, -, rfl⟩⟩ := memrefViewSpan_ok hspan
  · exact absurd hindex (not_inside_of_empty hempty)
  rw [elementOffset_eq hnonneg]
  have hle : (offset index (layoutOf dims) + 1) * elem.bytes ≤ size - start :=
    (Nat.mul_le_mul_right _ (Nat.succ_le_succ (Lib.Strided.offset_le_last hindex))).trans hbytes
  have hsum : start + (offset index (layoutOf dims) * elem.bytes + elem.bytes) ≤ size := by
    rw [Nat.succ_mul] at hle
    omega
  exact ⟨Int.natCast_nonneg _, by exact_mod_cast (Nat.add_assoc _ _ _).trans_le hsum⟩

theorem pos_of_inView (h : InView index dims) : ∀ dim ∈ dims, 0 < dim.1 := by
  intro dim hdim
  by_contra hneg
  induction dims generalizing index with
  | nil => simp at hdim
  | cons d dims ih =>
    cases index with
    | nil => simp [InView] at h
    | cons i index =>
      simp only [InView, and_eq_true, decide_eq_true_eq] at h
      rcases List.mem_cons.mp hdim with rfl | hdim
      · omega
      · exact ih h.2 hdim

theorem elementOffset_of_zero (h : ∀ dim ∈ dims, dim.2 = 0) : elementOffset index dims = 0 := by
  induction dims generalizing index with
  | nil => cases index <;> rfl
  | cons d dims ih =>
    cases index with
    | nil => rfl
    | cons i index =>
      rw [elementOffset, h d mem_cons_self, ih fun d' hd' => h d' (mem_cons_of_mem _ hd')]
      simp

variable {r : ℕ}

theorem dimsAt_eq (harg : arg.Formed) (hrank : arg.rank = r) : dimsAt r (arg.sizes ++ arg.strides) = arg.dims := by
  have hsizes := harg.sizes_length
  have hstrides := harg.strides_length
  apply ext_getElem
  · simp [dimsAt, TaggedArg.dims, hsizes, hstrides, hrank]
  intro d hd hd'
  simp only [dimsAt, length_map, length_range] at hd
  simp only [dimsAt, TaggedArg.dims, getElem_map, getElem_range, getElem_zip, Prod.mk.injEq, getD_eq_getElem?_getD]
  constructor
  · rw [List.getElem?_append_left (by omega), List.getElem?_eq_getElem (by omega), getD_some]
  · rw [List.getElem?_append_right (by omega), show r + d - arg.sizes.length = d by omega,
      List.getElem?_eq_getElem (by omega), getD_some]

theorem contained_of_wide {bytes size start : ℕ} (harg : arg.Formed) (hrank : 2 * arg.rank ≤ r)
    (hspan : memrefViewSpan arg.dims arg.elem = .ok bytes) (hbytes : bytes ≤ size - start) (hstart : start < size) :
    Contained size start arg.elem.bytes (dimsAt r (arg.sizes ++ arg.strides)) := by
  intro index hindex
  have hlen : (arg.sizes ++ arg.strides).length = 2 * arg.rank := by
    rw [length_append, harg.sizes_length, harg.strides_length, Nat.two_mul]
  have hstrides : ∀ dim ∈ dimsAt r (arg.sizes ++ arg.strides), dim.2 = 0 := by
    intro dim hdim
    obtain ⟨d, -, rfl⟩ := List.mem_map.mp hdim
    show (arg.sizes ++ arg.strides).getD (r + d) 0 = 0
    rw [getD_eq_getElem?_getD, List.getElem?_eq_none (by omega), getD_none]
  have hpos : ∀ size ∈ arg.sizes, 0 < size := by
    intro v hv
    obtain ⟨d, hd, rfl⟩ := List.mem_iff_getElem.mp hv
    have hdr : d < r := by
      rw [harg.sizes_length] at hd
      omega
    have hdim := pos_of_inView hindex _ (List.mem_map_of_mem (List.mem_range.mpr hdr))
    rwa [getD_eq_getElem?_getD, List.getElem?_append_left hd, List.getElem?_eq_getElem hd] at hdim
  rw [elementOffset_of_zero hstrides]
  obtain ⟨-, -, ⟨-, ⟨dim, hdim, hzero⟩⟩ | ⟨-, -, rfl⟩⟩ := memrefViewSpan_ok hspan
  · have := hpos dim.1 (of_mem_zip hdim).1
    omega
  · have hle : arg.elem.bytes ≤ (last (layoutOf arg.dims) + 1) * arg.elem.bytes := Nat.le_mul_of_pos_left _ (by omega)
    refine ⟨le_rfl, ?_⟩
    omega

variable {t : Table} {capacity i : ℕ} {s s' : Storage}

theorem agentData_some {data : Word} (h : agentData t arg = some data) :
    ∃ r start region bytes, data = .data r start ∧ t.resolve arg.handle = some (r, start) ∧
      t.regions[r]? = some region ∧ region.live ∧ start < region.size ∧
        memrefViewSpan arg.dims arg.elem = .ok bytes ∧ bytes ≤ region.size - start := by
  unfold agentData at h
  split at h
  · cases h
  next r start hresolve =>
    split at h
    · cases h
    next region hregion =>
      split at h
      next hfits =>
        cases h
        obtain ⟨-, region', hregion', hlive, hstart, -⟩ := resolve_some hresolve
        cases hregion.symm.trans hregion'
        unfold agentViewFits at hfits
        split at hfits
        · cases hfits
        split at hfits
        · cases hfits
        next bytes hspan =>
          exact ⟨r, start, region, bytes, rfl, hresolve, hregion, hlive, hstart, hspan, of_decide_eq_true hfits⟩
      · cases h

variable (h : rebuildTagged t capacity i arg s = some s')
include h

theorem rebuildTagged_cases : (abiIsSlot arg.tag = false ∧ abiKind arg.tag ≠ abiKindMemref ∧ s' = s) ∨
    (abiIsSlot arg.tag = true ∧ s'.descPtrs = update s.descPtrs i (s.cursor + descWords (abiRank arg.tag)) ∧
      s'.cursor = s.cursor + descWords (abiRank arg.tag) + descWords 0 ∧
      (arg.handle = 0 ∧ s'.words = slotWords s.words s.cursor (abiRank arg.tag) ∨
        ∃ data, arg.handle ≠ 0 ∧ agentData t arg = some data ∧
          s'.words = writeDesc (slotWords s.words s.cursor (abiRank arg.tag)) s.cursor data arg)) ∨
    (abiIsSlot arg.tag = false ∧ abiKind arg.tag = abiKindMemref ∧
      ∃ data, agentData t arg = some data ∧ s'.descPtrs = update s.descPtrs i s.cursor ∧
        s'.cursor = s.cursor + descWords arg.rank ∧ s'.words = writeDesc s.words s.cursor data arg) := by
  unfold rebuildTagged at h
  split at h
  next hslot =>
    refine .inr (.inl ⟨hslot, ?_⟩)
    simp only at h
    split at h
    · cases h
    split at h
    next hhandle =>
      cases h
      exact ⟨rfl, rfl, .inl ⟨hhandle, rfl⟩⟩
    next hhandle =>
      obtain ⟨data, hdata, rfl⟩ := Option.map_eq_some_iff.mp h
      exact ⟨rfl, rfl, .inr ⟨data, hhandle, hdata, rfl⟩⟩
  next hslot =>
    rw [not_eq_true] at hslot
    split at h
    next hkind =>
      cases h
      exact .inl ⟨hslot, hkind, rfl⟩
    next hkind =>
      split at h
      · cases h
      next data hdata =>
        split at h
        · cases h
        · cases h
          exact .inr (.inr ⟨hslot, not_not.mp hkind, data, hdata, rfl, rfl, rfl⟩)

theorem abiRank_le_of_rebuild (hslot : abiIsSlot arg.tag) : abiRank arg.tag ≤ abiMaxRank := by
  rw [rebuildTagged, if_pos hslot] at h
  simp only at h
  split at h
  · cases h
  next hroom => omega

theorem cursor_le_of_rebuild : s.cursor ≤ s'.cursor := by
  rcases rebuildTagged_cases h with ⟨-, -, rfl⟩ | ⟨-, -, hcursor, -⟩ | ⟨-, -, data, -, -, hcursor, -⟩ <;> omega

theorem words_of_rebuild {k : ℕ} (hk : k < s.cursor) : s'.words k = s.words k := by
  rcases rebuildTagged_cases h with ⟨-, -, rfl⟩ | ⟨-, -, -, ⟨-, hwords⟩ | ⟨data, -, -, hwords⟩⟩ |
    ⟨-, -, data, -, -, -, hwords⟩
  · rfl
  · rw [hwords, slotWords_below hk]
  · rw [hwords, writeDesc_below hk, slotWords_below hk]
  · rw [hwords, writeDesc_below hk]

theorem descPtrs_of_rebuild {j : ℕ} (hj : j ≠ i) : s'.descPtrs j = s.descPtrs j := by
  rcases rebuildTagged_cases h with ⟨-, -, rfl⟩ | ⟨-, hptrs, -⟩ | ⟨-, -, data, -, hptrs, -⟩
  · rfl
  · rw [hptrs, update_of_ne hj]
  · rw [hptrs, update_of_ne hj]

omit h

theorem TaggedArg.RanksAgree.le (h : arg.RanksAgree) (hslot : abiIsSlot arg.tag) (hhandle : arg.handle ≠ 0) :
    arg.rank ≤ abiRank arg.tag := by
  have := h hslot hhandle
  omega

theorem alone_of_rebuild (harg : arg.Formed) (hranks : arg.RanksAgree) (h : rebuildTagged t capacity i arg s = some s') :
    Alone i s s' := by
  refine ⟨fun k hk => ?_, fun j hj => descPtrs_of_rebuild h hj⟩
  rcases hk with hk | hk
  · exact words_of_rebuild h hk
  rcases rebuildTagged_cases h with ⟨-, -, rfl⟩ | ⟨hslot, -, hcursor, ⟨-, hwords⟩ | ⟨data, hhandle, -, hwords⟩⟩ |
    ⟨-, -, data, -, -, hcursor, hwords⟩
  · rfl
  · rw [hwords, slotWords_above (by omega)]
  · have hle := hranks.le hslot hhandle
    rw [hwords, writeDesc_above harg, slotWords_above (by omega)]
    simp only [descWords] at hcursor ⊢
    omega
  · rw [hwords, writeDesc_above harg (by omega)]

def Located (s : Storage) (i tag n : ℕ) : Prop :=
  s.descPtrs i + 1 < n ∧ ∀ desc, operandDesc s i tag = some desc → desc + descWords (abiRank tag) ≤ n

theorem located_of_rebuild (harg : arg.Formed) (hranks : arg.RanksAgree) (hdesc : arg.HasDesc)
    (h : rebuildTagged t capacity i arg s = some s') : Located s' i arg.tag s'.cursor := by
  rcases rebuildTagged_cases h with ⟨hslot, hkind, -⟩ | ⟨hslot, hptrs, hcursor, hwords⟩ |
    ⟨hslot, hkind, data, -, hptrs, hcursor, -⟩
  · rcases hdesc with hdesc | hdesc
    · exact absurd (hslot.symm.trans hdesc) (by decide)
    · exact absurd hdesc hkind
  · have houter : s'.words (s.cursor + descWords (abiRank arg.tag) + 1) = .place s.cursor := by
      rcases hwords with ⟨-, hwords⟩ | ⟨data, hhandle, -, hwords⟩
      · rw [hwords, slotWords_outer]
      have hle := hranks.le hslot hhandle
      rw [hwords, writeDesc_above harg, slotWords_outer]
      simp only [descWords]
      omega
    rw [Located, operandDesc, if_pos hslot, hptrs, update_self, houter, hcursor]
    refine ⟨by simp only [descWords]; omega, fun desc hplace => ?_⟩
    cases hplace
    omega
  · rw [Located, operandDesc, if_neg (by simp [hslot]), hptrs, update_self, hcursor, harg.memref hslot hkind]
    refine ⟨by simp only [descWords]; omega, fun desc hplace => ?_⟩
    cases hplace
    exact le_rfl

theorem served_of_rebuild (harg : arg.Formed) (hranks : arg.RanksAgree) (hholds : arg.HoldsBuffer)
    (h : rebuildTagged t capacity i arg s = some s') : Served t s' i arg := by
  rcases rebuildTagged_cases h with ⟨hslot, hkind, -⟩ | ⟨hslot, hptrs, -, ⟨hhandle, -⟩ | ⟨data, hhandle, hdata, hwords⟩⟩ |
    ⟨hslot, hkind, data, hdata, hptrs, -, hwords⟩
  · rw [TaggedArg.HoldsBuffer, if_neg (by simp [hslot])] at hholds
    exact absurd hholds hkind
  · rw [TaggedArg.HoldsBuffer, if_pos hslot] at hholds
    exact absurd hhandle hholds
  · obtain ⟨r, start, region, bytes, rfl, hresolve, hregion, hlive, hstart, hspan, hbytes⟩ := agentData_some hdata
    have hle := hranks.le hslot hhandle
    have houter : s'.words (s'.descPtrs i + 1) = .place s.cursor := by
      rw [hptrs, update_self, hwords, writeDesc_above harg, slotWords_outer]
      simp only [descWords]
      omega
    have hdims : readDims s'.words s.cursor (abiRank arg.tag) =
        some (dimsAt (abiRank arg.tag) (arg.sizes ++ arg.strides)) := by
      rw [hwords]
      refine readDims_writeDesc harg fun k _ hk => ?_
      rw [Nat.add_assoc, slotWords_inner]
      simp only [descWords]
      omega
    refine ⟨r, start, region, dimsAt (abiRank arg.tag) (arg.sizes ++ arg.strides), ?_, hresolve, hregion, hlive, ?_⟩
    · have hoperand : operandDesc s' i arg.tag = some s.cursor := by rw [operandDesc, if_pos hslot, houter]
      rw [readDesc_eq hoperand hdims, hwords, writeDesc_data, writeDesc_offset]
    rcases hranks hslot hhandle with heq | hwide
    · rw [dimsAt_eq harg heq]
      exact contained_of_span hspan hbytes hstart
    · exact contained_of_wide harg hwide hspan hbytes hstart
  · obtain ⟨r, start, region, bytes, rfl, hresolve, hregion, hlive, hstart, hspan, hbytes⟩ := agentData_some hdata
    have hrank := harg.memref hslot hkind
    have hdims : readDims s'.words s.cursor (abiRank arg.tag) = some arg.dims := by
      rw [hwords, readDims_writeDesc harg fun k hle hk => by omega, dimsAt_eq harg hrank]
    refine ⟨r, start, region, arg.dims, ?_, hresolve, hregion, hlive, contained_of_span hspan hbytes hstart⟩
    have hoperand : operandDesc s' i arg.tag = some s.cursor := by
      rw [operandDesc, if_neg (by simp [hslot]), hptrs, update_self]
    rw [readDesc_eq hoperand hdims, hwords, writeDesc_data, writeDesc_offset]

end

section
variable {t : Table} {capacity i : ℕ} {arg : TaggedArg} {args : List TaggedArg} {s s' : Storage}

theorem frame_of_rebuildAll (h : rebuildAllTagged t capacity i args s = some s') :
    s.cursor ≤ s'.cursor ∧ (∀ k < s.cursor, s'.words k = s.words k) ∧ ∀ j < i, s'.descPtrs j = s.descPtrs j := by
  induction args generalizing i s with
  | nil =>
    cases h
    exact ⟨le_rfl, fun _ _ => rfl, fun _ _ => rfl⟩
  | cons arg args ih =>
    obtain ⟨s₁, hstep, hrest⟩ := Option.bind_eq_some_iff.mp h
    obtain ⟨hcursor, hwords, hptrs⟩ := ih hrest
    have hle := cursor_le_of_rebuild hstep
    refine ⟨hle.trans hcursor, fun k hk => ?_, fun j hj => ?_⟩
    · rw [hwords k (by omega), words_of_rebuild hstep hk]
    · rw [hptrs j (by omega), descPtrs_of_rebuild hstep (by omega)]

theorem abiRank_le_of_rebuildAll (h : rebuildAllTagged t capacity i args s = some s') :
    ∀ arg ∈ args, abiIsSlot arg.tag → abiRank arg.tag ≤ abiMaxRank := by
  induction args generalizing i s with
  | nil => simp
  | cons arg args ih =>
    obtain ⟨s₁, hstep, hrest⟩ := Option.bind_eq_some_iff.mp h
    intro arg' harg'
    rcases List.mem_cons.mp harg' with rfl | hmem
    · exact abiRank_le_of_rebuild hstep
    · exact ih hrest arg' hmem

theorem readDim_congr {words words' : ℕ → Word} {desc r d n : ℕ} (h : ∀ k < n, words' k = words k)
    (hdesc : desc + descWords r ≤ n) (hd : d < r) : readDim words' desc r d = readDim words desc r d := by
  rw [descWords] at hdesc
  rw [readDim, readDim, h _ (by omega), h _ (by omega)]

theorem readDesc_congr {j tag n : ℕ} (hwords : ∀ k < n, s'.words k = s.words k) (hptrs : s'.descPtrs j = s.descPtrs j)
    (hlocated : Located s j tag n) : readDesc s' j tag = readDesc s j tag := by
  obtain ⟨hptr, hdesc⟩ := hlocated
  have hoperand : operandDesc s' j tag = operandDesc s j tag := by
    rw [operandDesc, operandDesc, hptrs, hwords _ hptr]
  rw [readDesc, readDesc, hoperand]
  cases hplace : operandDesc s j tag with
  | none => rfl
  | some desc =>
    have hle := hdesc desc hplace
    have hdims : readDims s'.words desc (abiRank tag) = readDims s.words desc (abiRank tag) := by
      exact mapM_congr fun d hd => readDim_congr hwords hle (List.mem_range.mp hd)
    simp only [descWords] at hle
    simp only [bind_eq_bind, bind_some, hdims, hwords (desc + 1) (by omega), hwords (desc + 2) (by omega)]

theorem readDesc_of_rebuildAll {j tag : ℕ} (hj : j < i) (h : rebuildAllTagged t capacity i args s = some s')
    (hlocated : Located s j tag s.cursor) : readDesc s' j tag = readDesc s j tag := by
  obtain ⟨-, hwords, hptrs⟩ := frame_of_rebuildAll h
  exact readDesc_congr hwords (hptrs j hj) hlocated

theorem rebuildAll_append {before after : List TaggedArg} : rebuildAllTagged t capacity i (before ++ after) s =
      (rebuildAllTagged t capacity i before s).bind (rebuildAllTagged t capacity (i + before.length) after) := by
  induction before generalizing i s with
  | nil => rfl
  | cons arg before ih =>
    simp only [cons_append, rebuildAllTagged, bind_assoc]
    congr 1
    funext s₁
    rw [ih, length_cons, Nat.add_right_comm, Nat.add_assoc]

theorem agentReceive_some {memory : ℕ → Word} {body : Bytes} (h : agentReceive t capacity memory body = some (args, s)) :
    (∀ arg ∈ args, arg.Formed) ∧ rebuildAllTagged t capacity 0 args (.initial memory) = some s := by
  simp only [agentReceive, bind_eq_bind, bind_eq_some_iff] at h
  obtain ⟨⟨⟨payload, numArgs⟩, r⟩, -, ⟨args', r'⟩, hargs, s', hs, heq⟩ := h
  cases heq
  exact ⟨wireGetArgs_formed hargs, hs⟩

/-- Every body that is accepted, and whose slots with a buffer have only permitted ranks in their body and their tag,
has all its views inside their regions. A rebuild writes its own words only, and its descriptor stays as it wrote it. -/
def ServesNamed (permitted : ℕ → ℕ → Prop) : Prop :=
  ∀ (t : Table) (capacity : ℕ) (memory : ℕ → Word) (body : Bytes) (args : List TaggedArg) (s : Storage),
    agentReceive t capacity memory body = some (args, s) →
    (∀ arg ∈ args, abiIsSlot arg.tag → arg.handle ≠ 0 → permitted arg.rank (abiRank arg.tag)) →
    (∀ i arg, args[i]? = some arg → arg.HoldsBuffer → Served t s i arg) ∧
    ∀ before arg after s₁ s₂, args = before ++ arg :: after →
      rebuildAllTagged t capacity 0 before (.initial memory) = some s₁ →
      rebuildTagged t capacity before.length arg s₁ = some s₂ →
      Alone before.length s₁ s₂ ∧
        (arg.HasDesc → readDesc s before.length arg.tag = readDesc s₂ before.length arg.tag)

variable {capacity : ℕ} {memory : ℕ → Word} {s s₁ s₂ : Storage} {args before after : List TaggedArg}

theorem HasDesc_of_holdsBuffer (h : arg.HoldsBuffer) : arg.HasDesc := by
  unfold TaggedArg.HoldsBuffer at h
  split at h
  next hslot => exact .inl hslot
  next => exact .inr h

theorem rebuildAll_split (h : rebuildAllTagged t capacity 0 (before ++ arg :: after) s₁ = some s) :
    ∃ s₂ s₃, rebuildAllTagged t capacity 0 before s₁ = some s₂ ∧ rebuildTagged t capacity before.length arg s₂ = some s₃ ∧
      rebuildAllTagged t capacity (before.length + 1) after s₃ = some s := by
  rw [rebuildAll_append, Nat.zero_add] at h
  obtain ⟨s₂, hbefore, h⟩ := Option.bind_eq_some_iff.mp h
  obtain ⟨s₃, hstep, hafter⟩ := Option.bind_eq_some_iff.mp h
  exact ⟨s₂, s₃, hbefore, hstep, hafter⟩

theorem readDesc_final (harg : arg.Formed) (hranks : arg.RanksAgree) (hdesc : arg.HasDesc)
    (hstep : rebuildTagged t capacity before.length arg s₁ = some s₂)
    (hafter : rebuildAllTagged t capacity (before.length + 1) after s₂ = some s) :
    readDesc s before.length arg.tag = readDesc s₂ before.length arg.tag :=
  readDesc_of_rebuildAll (Nat.lt_succ_self _) hafter (located_of_rebuild harg hranks hdesc hstep)

theorem Served.congr {i : ℕ} (h : Served t s₁ i arg) (hread : readDesc s i arg.tag = readDesc s₁ i arg.tag) :
    Served t s i arg := by
  obtain ⟨r, start, region, dims, hdesc, hrest⟩ := h
  exact ⟨r, start, region, dims, hread.trans hdesc, hrest⟩

theorem servesNamed_of_agree {permitted : ℕ → ℕ → Prop}
    (h : ∀ q ≤ abiMaxRank, ∀ r ≤ abiMaxRank, permitted q r → q = r ∨ 2 * q ≤ r) : ServesNamed permitted := by
  intro t capacity memory body args s hreceive hpermitted
  obtain ⟨hformed, hrebuild⟩ := agentReceive_some hreceive
  have hagree : ∀ arg ∈ args, arg.RanksAgree := fun arg harg hslot hhandle =>
    h _ (hformed arg harg).rank_le _ (abiRank_le_of_rebuildAll hrebuild arg harg hslot)
      (hpermitted arg harg hslot hhandle)
  constructor
  · intro i arg hi hholds
    obtain ⟨hlt, rfl⟩ := List.getElem?_eq_some_iff.mp hi
    have hmem := getElem_mem hlt
    have hargs : args = args.take i ++ args[i] :: args.drop (i + 1) := by
      rw [getElem_cons_drop, take_append_drop]
    have hlen : (args.take i).length = i := length_take_of_le hlt.le
    rw [hargs] at hrebuild
    obtain ⟨s₂, s₃, -, hstep, hafter⟩ := rebuildAll_split hrebuild
    have hserved := served_of_rebuild (hformed _ hmem) (hagree _ hmem) hholds hstep
    have hfinal := readDesc_final (hformed _ hmem) (hagree _ hmem) (HasDesc_of_holdsBuffer hholds) hstep hafter
    rw [hlen] at hserved hfinal
    exact hserved.congr hfinal
  · intro before arg after s₁ s₂ hargs hbefore hstep
    subst hargs
    have hmem : arg ∈ before ++ arg :: after := by simp
    obtain ⟨s₁', s₂', hbefore', hstep', hafter⟩ := rebuildAll_split hrebuild
    cases hbefore.symm.trans hbefore'
    cases hstep.symm.trans hstep'
    exact ⟨alone_of_rebuild (hformed _ hmem) (hagree _ hmem) hstep,
      fun hdesc => readDesc_final (hformed _ hmem) (hagree _ hmem) hdesc hstep hafter⟩

end

def oneRegion (size : ℕ) : Table := ⟨[⟨remoteAddr 1 0, size, 1, true⟩], 1, fun _ => 0⟩

def slotTag (rank : ℕ) : ℕ := 2 ^ 24 + 2 ^ 16 * rank + 2 ^ 8 * 2

/-- A slot of two bytes, with `q` dimensions in its body and `r` in its tag. Where `q` is less than `r` the first
stride that is read at `r` is the second byte past the first one. -/
def misranked (q r : ℕ) : TaggedArg :=
  ⟨slotTag r, [], remoteAddr 1 0, q, if r < q then List.replicate q 0 else 2 :: List.replicate (q - 1) 1,
    if r < q then List.replicate q 0 else (List.range q).map fun d => if d = r - q then 2 else 1⟩

def escapeIndex (r : ℕ) : List ℕ := 1 :: List.replicate (r - 1) 0

def misrankedBody (q r : ℕ) : Bytes := wirePutDispatch [] [misranked q r]

def misrankedEscapes (q r : ℕ) : Bool :=
  match agentReceive (oneRegion 2) 4096 (fun _ => .int 0) (misrankedBody q r) with
  | none => false
  | some (args, s) =>
    args = [misranked q r] &&
    match readDesc s 0 (slotTag r) with
    | none => true
    | some (_, _, dims) => InView (escapeIndex r) dims && 1 < elementOffset (escapeIndex r) dims

theorem misranked_escapes : ∀ q ≤ abiMaxRank, ∀ r ≤ abiMaxRank, ¬(q = r ∨ 2 * q ≤ r) →
    misrankedEscapes q r = true ∧ abiIsSlot (slotTag r) = true ∧ abiRank (slotTag r) = r ∧ abiElem (slotTag r) = 2 := by
  decide +kernel

theorem not_served_of_unread {t : Table} {s : Storage} {i : ℕ} {arg : TaggedArg}
    (h : readDesc s i arg.tag = none) : ¬ Served t s i arg := by
  rintro ⟨r, start, region, dims, hread, -⟩
  cases h.symm.trans hread

theorem not_served_of_escape {s : Storage} {i size : ℕ} {arg : TaggedArg} {word word' : Word} {dims : List (ℤ × ℤ)}
    (index : List ℕ) (hread : readDesc s i arg.tag = some (word, word', dims)) (hindex : InView index dims)
    (hpast : size < elementOffset index dims * arg.elem.bytes + arg.elem.bytes) : ¬ Served (oneRegion size) s i arg := by
  rintro ⟨r, start, region, dims', hread', -, hregion, -, hcontained⟩
  cases hread.symm.trans hread'
  have hmem := mem_of_getElem? hregion
  simp only [oneRegion, List.mem_singleton] at hmem
  subst hmem
  have hle := (hcontained index hindex).2
  simp only at hle
  omega

/-- The ranks for which a worker serves only what is named. -/
theorem servesNamed_iff (permitted : ℕ → ℕ → Prop) :
    ServesNamed permitted ↔
      ∀ q ≤ abiMaxRank, ∀ r ≤ abiMaxRank, permitted q r → q = r ∨ 2 * q ≤ r := by
  constructor
  · intro hserves q hq r hr hpermitted
    by_contra hranks
    obtain ⟨hescapes, hslot, hrank, helem⟩ := misranked_escapes q hq r hr hranks
    have hbytes : (misranked q r).elem.bytes = 1 := by
      rw [TaggedArg.elem, show (misranked q r).tag = slotTag r from rfl, helem]
      rfl
    unfold misrankedEscapes at hescapes
    split at hescapes
    · cases hescapes
    next args s hreceive =>
      rw [and_eq_true, decide_eq_true_eq] at hescapes
      obtain ⟨rfl, hescapes⟩ := hescapes
      obtain ⟨hserved, -⟩ := hserves _ _ _ _ _ _ hreceive (by
        intro arg harg _ _
        rw [List.mem_singleton.mp harg]
        exact hrank.symm ▸ hpermitted)
      have hserved := hserved 0 (misranked q r) rfl (by
        rw [TaggedArg.HoldsBuffer, show (misranked q r).tag = slotTag r from rfl, if_pos hslot]
        show remoteAddr 1 0 ≠ 0
        decide)
      split at hescapes
      next hread => exact not_served_of_unread hread hserved
      next word word' dims hread =>
        rw [and_eq_true, decide_eq_true_eq] at hescapes
        refine not_served_of_escape _ hread hescapes.1 ?_ hserved
        rw [hbytes]
        omega
  · exact servesNamed_of_agree

def longSlot : TaggedArg := ⟨slotTag 3, [], remoteAddr 1 0, 2, [1000, 1], [1, 1000]⟩

def wideSlot : TaggedArg := ⟨slotTag 2, [], remoteAddr 1 0, 3, [0, 0, 0], [0, 0, 4096]⟩

/-- The worker takes a stride for a size in the one slot, and one for the place of the descriptor in the other. -/
theorem misranked_slots_escape :
    (∃ args s, agentReceive (oneRegion 1000) 4096 (fun _ => .int 0) (wirePutDispatch [] [longSlot]) = some (args, s) ∧
      args[0]? = some longSlot ∧ longSlot.HoldsBuffer ∧
      readDesc s 0 longSlot.tag = some (.data 0 0, .int 0, [(1000, 1000), (1, 0), (1, 0)]) ∧
      ¬ Served (oneRegion 1000) s 0 longSlot) ∧
    ∃ args s, agentReceive (oneRegion 1000) 4096 (fun _ => .int 0) (wirePutDispatch [] [wideSlot]) = some (args, s) ∧
      args[0]? = some wideSlot ∧ wideSlot.HoldsBuffer ∧ s.words (s.descPtrs 0 + 1) = .int 4096 ∧
      ¬ Served (oneRegion 1000) s 0 wideSlot := by
  constructor
  · have hreceive : (agentReceive (oneRegion 1000) 4096 (fun _ => .int 0) (wirePutDispatch [] [longSlot])).any
        (fun (args, s) => args = [longSlot] &&
          readDesc s 0 longSlot.tag = some (.data 0 0, .int 0, [(1000, 1000), (1, 0), (1, 0)])) := by
      decide +kernel
    obtain ⟨⟨args, s⟩, hreceive, hread⟩ := Option.any_eq_true _ _ |>.mp hreceive
    simp only [and_eq_true, decide_eq_true_eq] at hread
    obtain ⟨rfl, hread⟩ := hread
    exact ⟨_, s, hreceive, rfl, by decide, hread, not_served_of_escape [999, 0, 0] hread rfl (by decide)⟩
  · have hreceive : (agentReceive (oneRegion 1000) 4096 (fun _ => .int 0) (wirePutDispatch [] [wideSlot])).any
        (fun (args, s) => args = [wideSlot] && s.words (s.descPtrs 0 + 1) = .int 4096 &&
          readDesc s 0 wideSlot.tag = none) := by
      decide +kernel
    obtain ⟨⟨args, s⟩, hreceive, hread⟩ := Option.any_eq_true _ _ |>.mp hreceive
    simp only [and_eq_true, decide_eq_true_eq] at hread
    obtain ⟨⟨rfl, hword⟩, hread⟩ := hread
    exact ⟨_, s, hreceive, rfl, by decide, hword, not_served_of_unread hread⟩

end Vx.Remote
