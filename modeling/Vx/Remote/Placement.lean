import Vx.Remote.PlanSound

namespace Vx.Remote

open Lib.Grouping (Interval Holds)
open Lib.Strided

def spanBytes (vs : List View) (plan : Plan) (span : CopySpan) : List ℕ :=
  match span.packed vs plan with
  | some p => elementBytes p.start p.elem.bytes p.layout
  | none => (List.range span.bytes).map (span.start + ·)

structure Placed (vs : List View) (plan : Plan) (i : ℕ) (v : View) (span : CopySpan) : Prop where
  sizes : ∀ dim ∈ v.desc.dims, 0 < dim.1
  shift : 0 ≤ v.desc.offset
  start : plan.starts i = v.desc.aligned + v.desc.offset.toNat * v.elem.bytes
  element : ∀ index k, Inside index v.layout → k < v.elem.bytes →
    (spanBytes vs plan span)[plan.place i + offset index (layoutOf (plan.wireDims i v.desc.dims)) * v.elem.bytes + k]? =
      some (plan.starts i + offset index v.layout * v.elem.bytes + k)
  fits : plan.place i + (last (layoutOf (plan.wireDims i v.desc.dims)) + 1) * v.elem.bytes ≤ span.bytes

structure Plan.Ok (vs : List View) (plan : Plan) : Prop where
  lt : ∀ i s, plan.of i = some s → s < plan.spans.length
  pos : ∀ span ∈ plan.spans, 0 < span.bytes
  length : ∀ span ∈ plan.spans, (spanBytes vs plan span).length = span.bytes
  packedSizes : ∀ span ∈ plan.spans, ∀ p, span.packed vs plan = some p → ∀ dim ∈ p.layout, 0 < dim.1
  nodup : ∀ span ∈ plan.spans, (spanBytes vs plan span).Nodup
  disjoint : ∀ (s t : ℕ) (span span' : CopySpan) (a : ℕ), plan.spans[s]? = some span → plan.spans[t]? = some span' →
    a ∈ spanBytes vs plan span → a ∈ spanBytes vs plan span' → s = t
  view : ∀ (i : ℕ) (v : View), vs[i]? = some v → 0 < v.elem.bytes ∧ NonNegative v.desc.dims
  empty : ∀ (i : ℕ) (v : View), vs[i]? = some v → plan.of i = none → ∃ dim ∈ v.desc.dims, dim.1 = 0
  placed : ∀ (i : ℕ) (v : View) (s : ℕ), vs[i]? = some v → plan.of i = some s →
    ∃ span, plan.spans[s]? = some span ∧ Placed vs plan i v span

section
variable {views : ℕ → Option Interval} {vs : List View} {given : Spans} {link : ℕ → ℕ}

theorem copySpan_cases (views : ℕ → Option Interval) (vs : List View) (given : Spans) (s : ℕ) :
    copySpan views vs given s = ⟨(given.spans s).1, (given.spans s).2, none⟩ ∨
      ∃ i v m bytes, ((List.range vs.length).filter fun i => given.of i = some s) = [i] ∧ vs[i]? = some v ∧
        views i = some m ∧ packable v m.2 = some bytes ∧
        copySpan views vs given s = ⟨(given.spans s).1, bytes, some i⟩ := by
  unfold copySpan
  split
  next only hfilter =>
    split
    next v m hv hm =>
      split
      next bytes hpack => exact .inr ⟨only, v, m, bytes, hfilter, hv, hm, hpack, rfl⟩
      next => exact .inl rfl
    next => exact .inl rfl
  next => exact .inl rfl

theorem mem_of_filter {s i j : ℕ} (h : ((List.range vs.length).filter fun i => given.of i = some s) = [i]) :
    j < vs.length ∧ given.of j = some s ↔ j = i := by
  have hmem : j ∈ ((List.range vs.length).filter fun i => given.of i = some s) ↔ j ∈ [i] := by rw [h]
  rwa [List.mem_filter, List.mem_range, decide_eq_true_iff, List.mem_singleton] at hmem

structure Measured (views : ℕ → Option Interval) (link : ℕ → ℕ) (vs : List View) (given : Spans) : Prop where
  ok : given.Ok views link vs.length
  measured : ∀ (i : ℕ) (v : View), vs[i]? = some v → measure i v = .ok (views i)
  memory : ∀ v ∈ vs, v.InMemory
  disjoint : ∀ s t x, s < given.num → t < given.num → Holds (given.spans s) x → Holds (given.spans t) x → s = t

theorem Measured.lt (h : Measured views link vs given) {i s : ℕ} (hi : given.of i = some s) : i < vs.length := by
  by_contra hle
  have hnone := (h.ok.unplaced i).mpr (.inl (by omega))
  rw [hnone] at hi
  cases hi

theorem mem_plan_spans {span : CopySpan} {s : ℕ} :
    (given.plan views vs).spans[s]? = some span ↔ s < given.num ∧ copySpan views vs given s = span := by
  simp [Spans.plan, List.getElem?_eq_some_iff]

theorem View.InMemory.bytes_le {v : View} {i : ℕ} {m : Option Interval} (hmemory : v.InMemory) {first bytes : ℕ} (h : measure i v = .ok m)
    (hm : m = some (first, bytes)) : bytes ≤ memoryEnd := by
  subst hm
  unfold measure at h
  unfold View.InMemory at hmemory
  split at h
  · cases h
  next bytes' hspan =>
    rw [hspan] at hmemory
    split_ifs at h with hzero hneg
    · cases h
    split at h
    · cases h
    split at h
    · cases h
    · cases h
      omega

structure Dense (views : ℕ → Option Interval) (vs : List View) (given : Spans) (s i : ℕ) (v : View) (first bytes : ℕ) :
    Prop where
  copy : copySpan views vs given s = ⟨first, count v.layout * v.elem.bytes, some i⟩
  only : ∀ j, given.of j = some s ↔ j = i
  view : vs[i]? = some v
  measured : views i = some (first, bytes)
  start : (given.spans s).1 = first
  sizes : ∀ dim ∈ v.desc.dims, 0 < dim.1
  bytes_eq : bytes = (last v.layout + 1) * v.elem.bytes
  injective : ∀ is is', Inside is v.layout → Inside is' v.layout → offset is v.layout = offset is' v.layout → is = is'

theorem Measured.copySpan_cases (h : Measured views link vs given) {s : ℕ} (hs : s < given.num) :
    copySpan views vs given s = ⟨(given.spans s).1, (given.spans s).2, none⟩ ∨
      ∃ i v first bytes, Dense views vs given s i v first bytes := by
  rcases Remote.copySpan_cases views vs given s with hwhole | ⟨i, v, ⟨first, bytes⟩, dense, hfilter, hv, hm, hpack, hcopy⟩
  · exact .inl hwhole
  refine .inr ⟨i, v, first, bytes, ?_⟩
  have honly : ∀ j, given.of j = some s ↔ j = i := by
    intro j
    rw [← mem_of_filter hfilter]
    exact ⟨fun hj => ⟨h.lt hj, hj⟩, fun hj => hj.2⟩
  obtain ⟨helem, -, ⟨hnone, -⟩ | ⟨first', bytes', hsome, hsizes, hbytes, -, -⟩⟩ := measure_ok (h.measured i v hv)
  · rw [hm] at hnone
    cases hnone
  obtain ⟨rfl, rfl⟩ : first = first' ∧ bytes = bytes' := by simpa [hm] using hsome
  have hmemory := (h.memory v (List.mem_of_getElem? hv)).bytes_le (h.measured i v hv) hm
  obtain ⟨hdense, hinj⟩ := packable_some hpack helem (hbytes ▸ hmemory)
  obtain ⟨j, a, hj, ha, hstart⟩ := h.ok.first s hs
  obtain rfl := (honly j).mp hj
  obtain rfl : (first, bytes) = a := Option.some.inj (hm.symm.trans ha)
  exact ⟨by rw [hcopy, hstart, hdense], honly, hv, hm, hstart, hsizes, hbytes, hinj⟩

variable {s i first bytes : ℕ} {v : View}

theorem Dense.starts (h : Dense views vs given s i v first bytes) : (given.plan views vs).starts i = first := by
  simp [Spans.plan, h.measured]

theorem Dense.place (h : Dense views vs given s i v first bytes) : (given.plan views vs).place i = 0 := by
  simp [Spans.plan, h.measured, (h.only i).mpr rfl, h.start]

theorem Dense.packed (h : Dense views vs given s i v first bytes) :
    (copySpan views vs given s).packed vs (given.plan views vs) = some ⟨first, v.elem, v.layout⟩ := by
  simp [CopySpan.packed, h.copy, h.view, h.starts]

theorem Dense.spanBytes (h : Dense views vs given s i v first bytes) :
    spanBytes vs (given.plan views vs) (copySpan views vs given s) = elementBytes first v.elem.bytes v.layout := by
  rw [Remote.spanBytes, h.packed]

theorem spanBytes_whole (h : copySpan views vs given s = ⟨(given.spans s).1, (given.spans s).2, none⟩) :
    spanBytes vs (given.plan views vs) (copySpan views vs given s) =
      (List.range (given.spans s).2).map ((given.spans s).1 + ·) := by
  simp [Remote.spanBytes, CopySpan.packed, h]

variable (h : Measured views link vs given)
include h

theorem Measured.packed_iff (hi : given.of i = some s) :
    (given.plan views vs).packed i = true ↔ (copySpan views vs given s).view = some i := by
  simp only [Spans.plan, List.any_map, List.any_eq_true, List.mem_range, Function.comp_apply, decide_eq_true_iff]
  constructor
  · rintro ⟨t, ht, hview⟩
    rcases h.copySpan_cases ht with hwhole | ⟨j, v, first, bytes, hdense⟩
    · rw [hwhole] at hview
      cases hview
    rw [hdense.copy] at hview
    cases hview
    obtain rfl : s = t := Option.some.inj (hi.symm.trans ((hdense.only i).mpr rfl))
    rw [hdense.copy]
  · exact fun hview => ⟨s, h.ok.lt i s hi, hview⟩

theorem Measured.holds (hs : s < given.num) {a : ℕ}
    (ha : a ∈ spanBytes vs (given.plan views vs) (copySpan views vs given s)) : Holds (given.spans s) a := by
  rcases h.copySpan_cases hs with hwhole | ⟨i, v, first, bytes, hdense⟩
  · rw [spanBytes_whole hwhole] at ha
    obtain ⟨k, hk, rfl⟩ := List.mem_map.mp ha
    rw [List.mem_range] at hk
    exact ⟨by omega, by omega⟩
  · rw [hdense.spanBytes, mem_elementBytes] at ha
    obtain ⟨index, k, hindex, hk, rfl⟩ := ha
    have hinside := h.ok.inside i s _ ((hdense.only i).mpr rfl) hdense.measured
    have hoffset : offset index v.layout * v.elem.bytes + v.elem.bytes ≤ bytes := by
      rw [hdense.bytes_eq, ← Nat.succ_mul]
      exact Nat.mul_le_mul_right _ (Nat.succ_le_succ (offset_le_last hindex))
    exact ⟨by omega, by omega⟩

omit h in
theorem layout_pos (h : ∀ dim ∈ v.desc.dims, 0 < dim.1) : ∀ dim ∈ v.layout, 0 < dim.1 := by
  intro dim hdim
  obtain ⟨d, hd, rfl⟩ := List.mem_map.mp hdim
  have := h d hd
  omega

omit h in
theorem count_pos {layout : Layout} (h : ∀ dim ∈ layout, 0 < dim.1) : 0 < count layout := by
  have := last_dense h
  omega

theorem Measured.pos (hs : s < given.num) : 0 < (copySpan views vs given s).bytes := by
  obtain ⟨i, a, hi, ha, -⟩ := h.ok.first s hs
  obtain ⟨v, hv⟩ : ∃ v, vs[i]? = some v := ⟨_, List.getElem?_eq_getElem (h.lt hi)⟩
  obtain ⟨hpos, -, ⟨hnone, -⟩ | ⟨first, bytes, hm, -, hbytes, -⟩⟩ := measure_ok (h.measured i v hv)
  · rw [ha] at hnone
    cases hnone
  obtain rfl : a = (first, bytes) := Option.some.inj (ha.symm.trans hm)
  rcases h.copySpan_cases hs with hwhole | ⟨j, u, first', bytes', hdense⟩
  · have hinside := h.ok.inside i s _ hi ha
    have hbytes_pos : 0 < bytes := hbytes ▸ Nat.mul_pos (Nat.succ_pos _) hpos
    rw [hwhole]
    show 0 < (given.spans s).2
    omega
  · obtain rfl := (hdense.only i).mp hi
    obtain rfl : v = u := Option.some.inj (hv.symm.trans hdense.view)
    rw [hdense.copy]
    exact Nat.mul_pos (count_pos (layout_pos hdense.sizes)) hpos

theorem Measured.placed_whole (hv : vs[i]? = some v) (hi : given.of i = some s)
    (hwhole : copySpan views vs given s = ⟨(given.spans s).1, (given.spans s).2, none⟩) :
    Placed vs (given.plan views vs) i v (copySpan views vs given s) := by
  obtain ⟨hpos, hnonneg, ⟨hnone, -⟩ | ⟨first, bytes, hm, hsizes, hbytes, hshift, hfirst⟩⟩ := measure_ok (h.measured i v hv)
  · have := (h.ok.unplaced i).mpr (.inr hnone)
    rw [hi] at this
    cases this
  · have hinside := h.ok.inside i s _ hi hm
    have hstarts : (given.plan views vs).starts i = first := by simp [Spans.plan, hm]
    have hplace : (given.plan views vs).place i = first - (given.spans s).1 := by simp [Spans.plan, hm, hi]
    have hdims : layoutOf ((given.plan views vs).wireDims i v.desc.dims) = v.layout := by
      have hpacked : (given.plan views vs).packed i = false := by
        rw [← Bool.not_eq_true, h.packed_iff hi, hwhole]
        simp
      rw [Plan.wireDims, hpacked]
      rfl
    refine ⟨hsizes, hshift, hstarts.trans hfirst, fun index k hindex hk => ?_, ?_⟩
    · have hoffset : offset index v.layout * v.elem.bytes + v.elem.bytes ≤ bytes := by
        rw [hbytes, ← Nat.succ_mul]
        exact Nat.mul_le_mul_right _ (Nat.succ_le_succ (offset_le_last hindex))
      rw [spanBytes_whole hwhole, hdims, hplace, hstarts, List.getElem?_map, List.getElem?_range (by omega)]
      simp only [Option.map_some, Option.some.injEq]
      omega
    · rw [hdims, hplace, ← hbytes, hwhole]
      show first - (given.spans s).1 + bytes ≤ (given.spans s).2
      omega

theorem Measured.placed_dense (hdense : Dense views vs given s i v first bytes) :
    Placed vs (given.plan views vs) i v (copySpan views vs given s) := by
  have hi := (hdense.only i).mpr rfl
  obtain ⟨hpos, hnonneg, ⟨hnone, -⟩ | ⟨first', bytes', hm, hsizes, hbytes, hshift, hfirst⟩⟩ :=
    measure_ok (h.measured i v hdense.view)
  · rw [hdense.measured] at hnone
    cases hnone
  obtain ⟨rfl, rfl⟩ : first = first' ∧ bytes = bytes' := by simpa [hdense.measured] using hm
  have hdims : layoutOf ((given.plan views vs).wireDims i v.desc.dims) = dense v.layout := by
    have hpacked : (given.plan views vs).packed i = true := by rw [h.packed_iff hi, hdense.copy]
    rw [Plan.wireDims, if_pos hpacked]
    exact layoutOf_denseDims hnonneg
  refine ⟨hsizes, hshift, hdense.starts.trans hfirst, fun index k hindex hk => ?_, ?_⟩
  · rw [hdense.spanBytes, hdims, hdense.place, hdense.starts, Nat.zero_add]
    exact getElem?_elementBytes hindex hk
  · rw [hdims, hdense.place, last_dense (layout_pos hsizes), hdense.copy, Nat.zero_add]

theorem Measured.plan_ok : (given.plan views vs).Ok vs := by
  have hspan : ∀ span ∈ (given.plan views vs).spans, ∃ s < given.num, copySpan views vs given s = span := by
    intro span hspan
    obtain ⟨s, hs⟩ := List.mem_iff_getElem?.mp hspan
    exact ⟨s, mem_plan_spans.mp hs⟩
  exact {
    lt := by
      intro i s hi
      have := h.ok.lt i s hi
      simpa [Spans.plan] using this
    pos := by
      intro span hmem
      obtain ⟨s, hs, rfl⟩ := hspan span hmem
      exact h.pos hs
    length := by
      intro span hmem
      obtain ⟨s, hs, rfl⟩ := hspan span hmem
      rcases h.copySpan_cases hs with hwhole | ⟨i, v, first, bytes, hdense⟩
      · rw [spanBytes_whole hwhole, hwhole, List.length_map, List.length_range]
      · rw [hdense.spanBytes, hdense.copy, length_elementBytes]
    packedSizes := by
      intro span hmem p hp
      obtain ⟨s, hs, rfl⟩ := hspan span hmem
      rcases h.copySpan_cases hs with hwhole | ⟨i, v, first, bytes, hdense⟩
      · simp [hwhole, CopySpan.packed] at hp
      · rw [hdense.packed] at hp
        cases hp
        exact layout_pos hdense.sizes
    nodup := by
      intro span hmem
      obtain ⟨s, hs, rfl⟩ := hspan span hmem
      rcases h.copySpan_cases hs with hwhole | ⟨i, v, first, bytes, hdense⟩
      · rw [spanBytes_whole hwhole]
        exact List.nodup_range.map fun k k' hk => by simpa using hk
      · rw [hdense.spanBytes]
        exact elementBytes_nodup hdense.injective
    disjoint := by
      intro s t span span' a hspan hspan' ha ha'
      obtain ⟨hs, rfl⟩ := mem_plan_spans.mp hspan
      obtain ⟨ht, rfl⟩ := mem_plan_spans.mp hspan'
      exact h.disjoint s t a hs ht (h.holds hs ha) (h.holds ht ha')
    view := by
      intro i v hv
      obtain ⟨hpos, hnonneg, -⟩ := measure_ok (h.measured i v hv)
      exact ⟨hpos, hnonneg⟩
    empty := by
      intro i v hv hof
      obtain ⟨-, -, ⟨-, hzero⟩ | ⟨first, bytes, hm, -⟩⟩ := measure_ok (h.measured i v hv)
      · exact hzero
      rcases (h.ok.unplaced i).mp hof with hle | hnone
      · rw [List.getElem?_eq_none hle] at hv
        cases hv
      · rw [hm] at hnone
        cases hnone
    placed := by
      intro i v s hv hof
      have hs := h.ok.lt i s hof
      refine ⟨_, mem_plan_spans.mpr ⟨hs, rfl⟩, ?_⟩
      rcases h.copySpan_cases hs with hwhole | ⟨j, u, first, bytes, hdense⟩
      · exact h.placed_whole hv hof hwhole
      · obtain rfl := (hdense.only i).mp hof
        obtain rfl : v = u := Option.some.inj (hv.symm.trans hdense.view)
        exact h.placed_dense hdense }

end

theorem viewCopyPlan_ok {vs : List View} {plan : Plan} (hmemory : ∀ v ∈ vs, v.InMemory) (h : viewCopyPlan vs = .ok plan) :
    plan.Ok vs := by
  unfold viewCopyPlan at h
  split at h
  · cases h
  next ms hms =>
    cases h
    obtain ⟨hlength, hmeasures⟩ := measureAll_ok hms
    have hbeyond : ∀ i, vs.length ≤ i → (ms[i]?).join = none := by
      intro i hi
      rw [List.getElem?_eq_none (hlength ▸ hi)]
      rfl
    refine Measured.plan_ok ⟨giveSpans_ok (fun i => (ms[i]?).join) vs.length, ?_, hmemory, ?_⟩
    · intro i v hv
      obtain ⟨m, hm, hmeasure⟩ := hmeasures i v hv
      rw [Nat.zero_add] at hmeasure
      rw [hmeasure, hm]
      rfl
    · exact fun s t x hs ht => giveSpans_disjoint hbeyond hs ht

end Vx.Remote
