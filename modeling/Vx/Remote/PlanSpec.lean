import Vx.Remote.InPlace
import Vx.Remote.Placement

/-!
What `vx_view_copy_plan` leaves in the fields of the views and in the spans.
-/

namespace Vx.Remote

open Lib.Grouping
open Lib.Strided (count)
open Relation (ReflTransGen)

def View.extent (v : View) : Option Interval :=
  match memrefViewSpan v.desc.dims v.elem with
  | .error _ => none
  | .ok bytes => if bytes = 0 then none else some (v.desc.aligned + v.desc.offset.toNat * v.elem.bytes, bytes)

def extents (vs : List View) (i : ℕ) : Option Interval := (vs[i]?).bind View.extent

theorem measure_extent {v : View} {i : ℕ} {m : Option Interval} (h : measure i v = .ok m) : m = v.extent := by
  unfold measure at h
  split at h
  · cases h
  next bytes hspan =>
    simp only [View.extent, hspan]
    split_ifs at h ⊢ with hzero hneg
    · cases h
      rfl
    split at h
    · cases h
    next first hfirst =>
      split at h
      · cases h
      · cases h
        obtain ⟨shift, hshift, hadd⟩ := Option.bind_eq_some_iff.mp hfirst
        rw [mulU64] at hshift
        rw [addU64] at hadd
        split_ifs at hshift hadd
        cases hshift
        cases hadd
        rfl

theorem measured_extents {vs : List View} {ms : List (Option Interval)} (h : measureAll 0 vs = .ok ms) :
    (fun i => (ms[i]?).join) = extents vs := by
  obtain ⟨hlength, hmeasures⟩ := measureAll_ok h
  funext i
  cases hv : vs[i]? with
  | none =>
    rw [extents, hv, List.getElem?_eq_none (hlength ▸ List.getElem?_eq_none_iff.mp hv)]
    rfl
  | some v =>
    obtain ⟨m, hm, hmeasure⟩ := hmeasures i v hv
    rw [extents, hv, hm, measure_extent hmeasure]
    rfl

theorem extents_beyond (vs : List View) {i : ℕ} (hi : vs.length ≤ i) : extents vs i = none := by
  rw [extents, List.getElem?_eq_none hi]
  rfl

theorem groups_connected (views : ℕ → Option Interval) (n : ℕ) : Connected views (groups views n) := by
  have hstep : ∀ {link : ℕ → ℕ} (i j : ℕ), Connected views link ∧ Forest link →
      Connected views (joinViews views link i j) ∧ Forest (joinViews views link i j) := by
    intro link i j h
    unfold joinViews
    split
    next a b ha hb =>
      split
      next => exact h
      next hmeets => exact ⟨h.1.join h.2 ⟨a, b, ha, hb, by omega, by omega⟩, h.2.join i j⟩
    next => exact h
  have hrow : ∀ (i : ℕ) (l : List ℕ) {link : ℕ → ℕ}, Connected views link ∧ Forest link →
      Connected views (l.foldl (fun link j => joinViews views link i j) link) ∧
        Forest (l.foldl (fun link j => joinViews views link i j) link) := by
    intro i l
    induction l with
    | nil => exact fun h => h
    | cons j l ih => exact fun h => ih (hstep i j h)
  have hall : ∀ (l : List ℕ) {link : ℕ → ℕ}, Connected views link ∧ Forest link →
      Connected views (l.foldl (fun link i => (List.range i).foldl (fun link j => joinViews views link i j) link) link) := by
    intro l
    induction l with
    | nil => exact fun h => h.1
    | cons i l ih => exact fun h => ih (hrow i (List.range i) h)
  exact hall (List.range n) ⟨.id views, fun i => le_rfl⟩

theorem root_eq_iff {views : ℕ → Option Interval} {n : ℕ} (hbeyond : ∀ i, n ≤ i → views i = none) (i j : ℕ) :
    root (groups views n) i = root (groups views n) j ↔ ReflTransGen (Overlaps views) i j := by
  refine ⟨groups_connected views n i j, fun hchain => ?_⟩
  have hlt : ∀ {i a}, views i = some a → i < n := by
    intro i a ha
    by_contra hle
    rw [hbeyond i (by omega)] at ha
    cases ha
  induction hchain with
  | refl => rfl
  | tail _ hstep ih =>
    obtain ⟨a, b, ha, hb, hab⟩ := hstep
    exact ih.trans (root_eq_of_meets (hlt ha) (hlt hb) ha hb hab)

structure Hull (views : ℕ → Option Interval) (member : ℕ → Prop) (hull : Interval) : Prop where
  first : ∃ i a, member i ∧ views i = some a ∧ a.1 = hull.1
  final : ∃ i a, member i ∧ views i = some a ∧ a.1 + a.2 = hull.1 + hull.2
  inside : ∀ i a, member i → views i = some a → hull.1 ≤ a.1 ∧ a.1 + a.2 ≤ hull.1 + hull.2

def denseBytes (v : View) : ℕ := count v.layout * v.elem.bytes % addressSpace

def Copies (vs : List View) (st : SpanState) (s : ℕ) (hull : Interval) : Prop :=
  st.spans s = ⟨hull.1, hull.2, none⟩ ∧ (∀ i, (st.views i).span = s → (st.views i).packed = false) ∨
    ∃ i v, vs[i]? = some v ∧ (∀ j, (st.views j).span = s ↔ j = i) ∧ (st.views i).packed = true ∧
      st.spans s = ⟨hull.1, denseBytes v, some i⟩

structure PlanSpec (vs : List View) (st : SpanState) (hull : ℕ → Interval) : Prop where
  empty : ∀ i, extents vs i = none → (st.views i).span = -1
  placed : ∀ i a, extents vs i = some a → ∃ s < st.num, (st.views i).span = s ∧
    a.1 = (st.spans s).start + (st.views i).place ∧ a.1 + a.2 ≤ (hull s).1 + (hull s).2
  same : ∀ i j a b, extents vs i = some a → extents vs j = some b →
    ((st.views i).span = (st.views j).span ↔ ReflTransGen (Overlaps (extents vs)) i j)
  interval : ∀ s < st.num, Hull (extents vs) (fun i => (st.views i).span = s) (hull s)
  copies : ∀ s < st.num, Copies vs st s (hull s)
  disjoint : ∀ s < st.num, ∀ t < st.num, ∀ x, Holds (hull s) x → Holds (hull t) x → s = t

variable {vs : List View}

structure Leaves (views : ℕ → Option Interval) (vs : List View) (given : Spans) (st : SpanState) : Prop where
  num : st.num = given.num
  spans : ∀ s < given.num, st.spans s = copySpan views vs given s
  empty : ∀ i, views i = none → (st.views i).span = -1
  span : ∀ i (s : ℕ), (st.views i).span = s ↔ given.of i = some s
  place : ∀ i m s, views i = some m → given.of i = some s → (st.views i).place = m.1 - (given.spans s).1
  packed : ∀ i, (st.views i).packed = true ↔ ∃ s < given.num, (copySpan views vs given s).view = some i

theorem planLoops_leaves {views : ℕ → Option Interval} (hbeyond : ∀ i, vs.length ≤ i → views i = none) :
    Leaves views vs (giveSpans views vs.length) (planLoops views vs) := by
  have hok := giveSpans_ok views vs.length
  rw [planLoops_eq hbeyond]
  generalize giveSpans views vs.length = given at hok ⊢
  refine ⟨rfl, fun s hs => if_pos hs, fun i hi => ?_, fun i s => ?_, fun i m s hm hs => ?_, fun i => ?_⟩
  · simp only [fieldsOf_none hi]
  · cases hof : given.of i with
    | none =>
      have hv : views i = none := ((hok.unplaced i).mp hof).elim (hbeyond i) fun hnone => hnone
      simp only [fieldsOf_none hv]
      simp
    | some t =>
      obtain ⟨m, hm⟩ := (hok.some_of hof).2
      simp [fieldsOf_some hm, hof]
  · simp [fieldsOf_some hm, hm, hs]
  · simp [List.any_eq_true]

variable {views : ℕ → Option Interval} {given : Spans} {link : ℕ → ℕ} {st : SpanState}

theorem Leaves.copies (h : Leaves views vs given st) (hok : given.Ok views link vs.length) {s : ℕ} (hs : s < given.num) :
    Copies vs st s (given.spans s) := by
  have honly : ∀ {t i : ℕ}, t < given.num → (copySpan views vs given t).view = some i →
      ∃ v, vs[i]? = some v ∧ (∀ j, given.of j = some t ↔ j = i) ∧
        copySpan views vs given t = ⟨(given.spans t).1, denseBytes v, some i⟩ := by
    intro t i ht hview
    rcases copySpan_cases views vs given t with hwhole | ⟨j, v, m, bytes, hfilter, hv, hm, hpack, hcopy⟩
    · rw [hwhole] at hview
      cases hview
    rw [hcopy] at hview
    cases hview
    refine ⟨v, hv, fun k => ?_, ?_⟩
    · rw [← mem_of_filter hfilter]
      exact ⟨fun hk => ⟨(hok.some_of hk).1, hk⟩, fun hk => hk.2⟩
    rw [hcopy, denseBytes]
    simp only [packable] at hpack
    split_ifs at hpack
    cases hpack
    rfl
  cases hview : (copySpan views vs given s).view with
  | none =>
    refine .inl ⟨?_, fun i hi => ?_⟩
    · rw [h.spans s hs]
      rcases copySpan_cases views vs given s with hwhole | ⟨j, v, m, bytes, -, -, -, -, hcopy⟩
      · exact hwhole
      · rw [hcopy] at hview
        cases hview
    · rw [← Bool.not_eq_true, h.packed]
      rintro ⟨t, ht, hpacked⟩
      obtain ⟨v, -, hmembers, -⟩ := honly ht hpacked
      obtain rfl : s = t := Option.some.inj (((h.span i s).mp hi).symm.trans ((hmembers i).mpr rfl))
      rw [hview] at hpacked
      cases hpacked
  | some i =>
    obtain ⟨v, hv, hmembers, hcopy⟩ := honly hs hview
    refine .inr ⟨i, v, hv, fun j => (h.span j s).trans (hmembers j), (h.packed i).mpr ⟨s, hs, hview⟩, ?_⟩
    rw [h.spans s hs, hcopy]

theorem Leaves.start_eq (h : Leaves views vs given st) (hok : given.Ok views link vs.length) {s : ℕ} (hs : s < given.num) :
    (st.spans s).start = (given.spans s).1 := by
  rcases h.copies hok hs with ⟨hwhole, -⟩ | ⟨i, v, -, -, -, hdense⟩
  · rw [hwhole]
  · rw [hdense]

theorem planLoops_spec (vs : List View) :
    PlanSpec vs (planLoops (extents vs) vs) (giveSpans (extents vs) vs.length).spans := by
  have hbeyond : ∀ i, vs.length ≤ i → extents vs i = none := fun i hi => extents_beyond vs hi
  have hok := giveSpans_ok (extents vs) vs.length
  have hleaves := planLoops_leaves hbeyond
  have hof : ∀ i a, extents vs i = some a → ∃ s, (giveSpans (extents vs) vs.length).of i = some s := by
    intro i a ha
    refine Option.ne_none_iff_exists'.mp fun hnone => ?_
    rcases (hok.unplaced i).mp hnone with hle | hempty
    · rw [hbeyond i hle] at ha
      cases ha
    · rw [hempty] at ha
      cases ha
  have hmember : ∀ s < (giveSpans (extents vs) vs.length).num,
      Hull (extents vs) (fun i => ((planLoops (extents vs) vs).views i).span = s)
        ((giveSpans (extents vs) vs.length).spans s) := by
    intro s hs
    obtain ⟨i, a, hi, ha, hfirst⟩ := hok.first s hs
    obtain ⟨j, b, hj, hb, hfinal⟩ := hok.final s hs
    exact ⟨⟨i, a, (hleaves.span i s).mpr hi, ha, hfirst.symm⟩, ⟨j, b, (hleaves.span j s).mpr hj, hb, hfinal.symm⟩,
      fun k c hk hc => hok.inside k s c ((hleaves.span k s).mp hk) hc⟩
  refine ⟨hleaves.empty, fun i a ha => ?_, fun i j a b ha hb => ?_, hleaves.num ▸ hmember,
    fun s hs => hleaves.copies hok (hleaves.num ▸ hs), fun s hs t ht x => ?_⟩
  · obtain ⟨s, hs⟩ := hof i a ha
    have hlt := hok.lt i s hs
    have hinside := hok.inside i s a hs ha
    refine ⟨s, hleaves.num ▸ hlt, (hleaves.span i s).mpr hs, ?_, hinside.2⟩
    rw [hleaves.start_eq hok hlt, hleaves.place i a s ha hs]
    omega
  · obtain ⟨s, hs⟩ := hof i a ha
    obtain ⟨t, ht⟩ := hof j b hb
    rw [(hleaves.span i s).mpr hs, (hleaves.span j t).mpr ht, Int.ofNat_inj, hok.same i j s t hs ht, root_eq_iff hbeyond]
  · exact giveSpans_disjoint hbeyond (hleaves.num ▸ hs) (hleaves.num ▸ ht)

/-- The plan of views that are valid and fit the address space. -/
theorem view_copy_plan_spec (vs : List View) (h : ∀ v ∈ vs, v.Fits) :
    ∃ st hull, planInPlace vs = .ok st ∧ PlanSpec vs st hull := by
  obtain ⟨ms, hms⟩ := measureAll_of_fits h 0
  refine ⟨_, _, ?_, planLoops_spec vs⟩
  rw [planInPlace, hms]
  simp only [measured_extents hms]

def chainedViews : List View :=
  [⟨⟨1000, 0, [(4, 1)]⟩, .i8⟩, ⟨⟨1000, 6, [(4, 1)]⟩, .i8⟩, ⟨⟨1000, 2, [(6, 1)]⟩, .i8⟩, ⟨⟨2000, 0, [(3, 2)]⟩, .i16⟩,
    ⟨⟨3000, 0, [(0, 1)]⟩, .i8⟩]

theorem view_copy_plan_chained : ∃ st hull, planInPlace chainedViews = .ok st ∧ PlanSpec chainedViews st hull ∧
    (st.views 0).span = (st.views 1).span ∧ (st.views 4).span = -1 := by
  obtain ⟨st, hull, hplan, hspec⟩ := view_copy_plan_spec chainedViews (by decide)
  have hfirst : Overlaps (extents chainedViews) 0 2 :=
    ⟨(1000, 4), (1002, 6), by decide, by decide, by decide⟩
  have hsecond : Overlaps (extents chainedViews) 2 1 :=
    ⟨(1002, 6), (1006, 4), by decide, by decide, by decide⟩
  have hchain : ReflTransGen (Overlaps (extents chainedViews)) 0 1 := .tail (.single hfirst) hsecond
  exact ⟨st, hull, hplan, hspec, (hspec.same 0 1 (1000, 4) (1006, 4) (by decide) (by decide)).mpr hchain,
    hspec.empty 4 (by decide)⟩

end Vx.Remote
