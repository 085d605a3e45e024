import Vx.Remote.Staging

namespace Vx.Remote

open List Bool Int
open Lib.Relocation
open Lib.Strided

variable {β : Type}

section
variable {index : List ℕ} {dims : List (ℤ × ℤ)}

theorem inView_iff : InView index dims = true ↔ Inside index (layoutOf dims) := by
  induction dims generalizing index with
  | nil => cases index <;> simp [InView, Inside, layoutOf]
  | cons dim dims ih =>
    cases index with
    | nil => simp [InView, Inside, layoutOf]
    | cons i index =>
      have hsize : (i : ℤ) < dim.1 ↔ i < dim.1.toNat := by omega
      simp only [InView, and_eq_true, decide_eq_true_eq, ih, hsize]
      rfl

theorem elementOffset_eq (h : NonNegative dims) : elementOffset index dims = offset index (layoutOf dims) := by
  induction dims generalizing index with
  | nil => cases index <;> rfl
  | cons dim dims ih =>
    cases index with
    | nil => rfl
    | cons i index =>
      have hstride : dim.2 = (dim.2.toNat : ℤ) := (toNat_of_nonneg (h dim mem_cons_self).2).symm
      rw [elementOffset, ih fun d hd => h d (mem_cons_of_mem _ hd), hstride]
      simp [layoutOf, offset]

theorem not_inside_of_empty (h : ∃ dim ∈ dims, dim.1 = 0) : ¬ Inside index (layoutOf dims) := by
  induction dims generalizing index with
  | nil => simp at h
  | cons dim dims ih =>
    cases index with
    | nil => exact id
    | cons i index =>
      rintro ⟨hi, hrest⟩
      obtain ⟨d, hd, hzero⟩ := h
      rcases List.mem_cons.mp hd with rfl | hd
      · simp [hzero] at hi
      · exact ih ⟨d, hd, hzero⟩ hrest

variable {plan : Plan} {j : ℕ}

theorem wireDims_nonNegative (h : NonNegative dims) : NonNegative (plan.wireDims j dims) := by
  unfold Plan.wireDims
  split
  · exact denseDims_nonNegative h
  · exact h

theorem wireDims_sizes (plan : Plan) (j : ℕ) (dims : List (ℤ × ℤ)) :
    (plan.wireDims j dims).map Prod.fst = dims.map Prod.fst := by
  unfold Plan.wireDims
  split
  · exact denseDims_sizes dims
  · rfl

theorem length_wireDims (plan : Plan) (j : ℕ) (dims : List (ℤ × ℤ)) : (plan.wireDims j dims).length = dims.length := by
  rw [← length_map Prod.fst, wireDims_sizes, length_map]

theorem wireDims_exists (p : ℤ → Prop) : (∃ dim ∈ plan.wireDims j dims, p dim.1) ↔ ∃ dim ∈ dims, p dim.1 := by
  have h : ∀ l : List (ℤ × ℤ), (∃ dim ∈ l, p dim.1) ↔ ∃ n ∈ l.map Prod.fst, p n := by simp
  rw [h, wireDims_sizes, ← h]

theorem inside_wireDims (h : NonNegative dims) :
    Inside index (layoutOf (plan.wireDims j dims)) ↔ Inside index (layoutOf dims) := by
  unfold Plan.wireDims
  split
  · rw [layoutOf_denseDims h, inside_dense]
  · rfl

variable {i : ℕ}

theorem locateHere_of_inside {args : List (Arg β)} {v : View}
    (hi : (args[i]?).bind Arg.view = some v) (hdims : NonNegative v.desc.dims) (hshift : 0 ≤ v.desc.offset)
    (hindex : Inside index v.layout) : locateHere args i index = some ((List.range v.elem.bytes).map fun k =>
      v.desc.aligned + v.desc.offset.toNat * v.elem.bytes + offset index v.layout * v.elem.bytes + k) := by
  simp only [locateHere, hi, inView_iff.mpr hindex, if_true, Option.some.injEq, elementOffset_eq hdims]
  refine map_congr_left fun k _ => ?_
  have hcast : (v.desc.aligned + (v.desc.offset + (offset index (layoutOf v.desc.dims) : ℕ)) * v.elem.bytes + k : ℤ) =
      ((v.desc.aligned + v.desc.offset.toNat * v.elem.bytes + offset index v.layout * v.elem.bytes + k : ℕ) : ℤ) := by
    push_cast [toNat_of_nonneg hshift]
    rw [show v.layout = layoutOf v.desc.dims from rfl]
    ring
  rw [hcast, toNat_natCast]

variable {args : List (AgentArg β)}

theorem locateThere_of_inside {r o : ℕ} {elem : Dtype}
    (hi : args[i]? = some (.view elem r o dims)) (hdims : NonNegative dims) (hindex : Inside index (layoutOf dims)) :
    locateThere args i index = some ((List.range elem.bytes).map fun k =>
      (r, o + offset index (layoutOf dims) * elem.bytes + k)) := by
  simp only [locateThere, hi, inView_iff.mpr hindex, if_true, Option.some.injEq, elementOffset_eq hdims]
  refine map_congr_left fun k _ => ?_
  rw [Prod.mk.injEq]
  refine ⟨rfl, ?_⟩
  norm_cast

theorem locateHere_of_not_inside {args : List (Arg β)}
    (h : ∀ v, (args[i]?).bind Arg.view = some v → ¬ Inside index v.layout) : locateHere args i index = none := by
  unfold locateHere
  split
  · rfl
  next v hv => rw [if_neg fun hin => h v hv (inView_iff.mp hin)]

theorem locateThere_of_not_inside {r o : ℕ} {elem : Dtype}
    (hi : args[i]? = some (.view elem r o dims)) (hindex : ¬ Inside index (layoutOf dims)) :
    locateThere args i index = none := by
  simp only [locateThere, hi]
  rw [if_neg fun hin => hindex (inView_iff.mp hin)]

end

theorem rebuildView_eq {t : Table} {elem : Dtype} {arg : WireArg β} {r o bytes : ℕ} {region : Region}
    (hresolve : t.resolve arg.handle = some (r, o)) (hregion : t.regions[r]? = some region)
    (hspan : memrefViewSpan arg.dims elem = .ok bytes) (hrank : arg.dims.length ≤ abiMaxRank)
    (hfits : bytes ≤ region.size - o) : rebuildView t elem arg = some (.view elem r o arg.dims) := by
  simp only [rebuildView, hresolve, hregion, hspan]
  rw [if_neg (by omega)]

def Arg.descriptorBytes : Arg β → ℕ
  | .scalar _ _ => 0
  | .memref _ desc => agentDescBytes ((desc.map Desc.dims).getD []).length
  | .slot _ rank _ => agentDescBytes rank + agentDescBytes 0

theorem agentRebuildArgs_eq {t : Table} {room cursor : ℕ} {args : List (Arg β)} {out : List (WireArg β)}
    {P : Arg β → AgentArg β → Prop} (hlength : out.length = args.length)
    (hall : ∀ (i : ℕ) (arg : Arg β), args[i]? = some arg →
      ∃ wire a, out[i]? = some wire ∧ agentRebuildArg t wire = some (a, arg.descriptorBytes) ∧ P arg a)
    (hroom : cursor + (args.map Arg.descriptorBytes).sum ≤ room) :
    ∃ rebuilt, agentRebuildArgs t room out cursor = some rebuilt ∧ List.Forall₂ P args rebuilt := by
  induction args generalizing out cursor with
  | nil =>
    obtain rfl : out = [] := List.length_eq_zero_iff.mp hlength
    exact ⟨[], rfl, .nil⟩
  | cons arg args ih =>
    obtain ⟨wire, a, hwire, ha, hp⟩ := hall 0 arg rfl
    cases out with
    | nil => cases hwire
    | cons wire' out =>
      obtain rfl : wire' = wire := by simpa using hwire
      rw [map_cons, sum_cons] at hroom
      obtain ⟨rebuilt, hrebuilt, hrest⟩ := ih (by simpa using hlength)
        (fun i arg' hi => by simpa using hall (i + 1) arg' (by simpa using hi))
        (show cursor + arg.descriptorBytes + _ ≤ room by omega)
      refine ⟨a :: rebuilt, ?_, .cons hp hrest⟩
      rw [agentRebuildArgs, ha]
      simp only
      rw [if_neg (by omega), hrebuilt]
      rfl

/-- Where the view of `arg` is on the worker: nowhere that matters when it is empty, and else at its place in its span. -/
structure Rebuilt (vs : List View) (plan : Plan) (base : ℕ) (v : View) (j r o : ℕ) : Prop where
  view : vs[j]? = some v
  place : ∀ s, plan.of j = some s → r = base + s ∧ o = plan.place j

variable [Zero β] {mem : ℕ → β} {w : Worker β} {args : List (Arg β)} {s : Encoding β} {vs : List View} {plan : Plan}
  {spans : List Staged}

theorem Encoded.rebuildView (h : Encoded mem w args s vs plan spans) {v : View} {j handle : ℕ} (hv : vs[j]? = some v)
    (hrank : v.desc.dims.length ≤ abiMaxRank) (hhandle : Handle plan spans s.worker j v handle) {arg : WireArg β}
    (harg : arg.handle = handle) (hdims : arg.dims = plan.wireDims j v.desc.dims) :
    handle ≠ 0 ∧ ∃ r o, rebuildView s.worker.table v.elem arg = some (.view v.elem r o arg.dims) ∧
      Rebuilt vs plan w.table.regions.length v j r o := by
  obtain ⟨helem, hnonneg⟩ := h.plan_ok.view j v hv
  have hok := h.extends_worker.ok
  have hlength : arg.dims.length ≤ abiMaxRank := by rwa [hdims, length_wireDims]
  unfold Handle at hhandle
  split at hhandle
  next span hof =>
    obtain ⟨copy, hcopy, hplaced⟩ := h.plan_ok.placed j v span hv hof
    obtain ⟨first, hfirst, hat, hholds⟩ := h.span span copy hcopy
    obtain ⟨staged, hstaged, rfl⟩ := hhandle
    obtain rfl := Option.some.inj (hat.symm.trans hstaged)
    have hbytes : ((spanBytes vs plan copy).map mem).length = copy.bytes := by
      rw [length_map, h.plan_ok.length copy (mem_of_getElem? hcopy)]
    have hfits := hplaced.fits
    have hpos : 0 < (last (layoutOf (plan.wireDims j v.desc.dims)) + 1) * v.elem.bytes :=
      Nat.mul_pos (Nat.succ_pos _) helem
    have hspan : memrefViewSpan arg.dims v.elem = .ok ((last (layoutOf (plan.wireDims j v.desc.dims)) + 1) * v.elem.bytes) := by
      rw [hdims]
      refine memrefViewSpan_eq helem (wireDims_nonNegative hnonneg) ?_ ?_
      · intro dim hdim
        have : ¬ ∃ dim ∈ plan.wireDims j v.desc.dims, dim.1 ≤ 0 := by
          rw [wireDims_exists (· ≤ 0)]
          rintro ⟨dim, hdim, hle⟩
          have := hplaced.sizes dim hdim
          omega
        by_contra hle
        exact this ⟨dim, hdim, by omega⟩
      · obtain ⟨-, -, o, -, -, hmask⟩ := hok.region _ (mem_of_getElem? hholds.region)
        simp only [hbytes, offsetMask] at hmask
        simp only [addressSpace]
        omega
    refine ⟨by simp only; omega, _, _, rebuildView_eq (harg ▸ hholds.resolve hok (by omega)) hholds.region hspan hlength ?_,
      hv, ?_⟩
    · simp only [hbytes]
      omega
    · intro span' hof'
      obtain rfl : span = span' := Option.some.inj (hof.symm.trans hof')
      exact ⟨rfl, rfl⟩
  next hof =>
    obtain ⟨hne, r, hholds⟩ := hhandle
    have hempty := h.plan_ok.empty j v hv hof
    have hresolve : s.worker.table.resolve (handle + 0) = some (r, 0) := hholds.resolve hok (by simpa using helem)
    have hspan : memrefViewSpan arg.dims v.elem = .ok 0 := by
      rw [hdims]
      rw [memrefViewSpan_spec helem (wireDims_nonNegative hnonneg), if_pos ((wireDims_exists (· = 0)).mpr hempty)]
    refine ⟨hne, r, 0, rebuildView_eq (harg ▸ hresolve) hholds.region hspan hlength (Nat.zero_le _), hv, ?_⟩
    · intro span' hof'
      rw [hof] at hof'
      cases hof'

def Matches (vs : List View) (plan : Plan) (base : ℕ) (arg : Arg β) (a : AgentArg β) : Prop :=
  a.given = arg.given ∧
    match arg.view with
    | none => ∀ elem r o dims, a ≠ .view elem r o dims
    | some v => ∃ j r o, a = .view v.elem r o (plan.wireDims j v.desc.dims) ∧ Rebuilt vs plan base v j r o

theorem Encoded.rebuildArg (h : Encoded mem w args s vs plan spans) {i : ℕ} {arg : Arg β} (harg : args[i]? = some arg)
    (hslot : ∀ elem rank desc, arg = .slot elem rank desc → rank ≤ abiMaxRank) :
    ∃ wire a, s.out[i]? = some wire ∧ agentRebuildArg s.worker.table wire = some (a, arg.descriptorBytes) ∧
      Matches vs plan w.table.regions.length arg a := by
  cases hview : arg.view with
  | none =>
    refine ⟨arg.wire, ?_⟩
    rw [h.plain i arg harg hview]
    cases arg with
    | scalar kind bytes => exact ⟨_, rfl, rfl, rfl, by simp [Arg.view]⟩
    | memref elem desc =>
      cases desc with
      | none => exact absurd rfl (h.described _ (mem_of_getElem? harg) elem)
      | some desc => cases hview
    | slot elem rank desc =>
      have hrank := hslot elem rank desc rfl
      refine ⟨.emptySlot, rfl, ?_, ?_, ?_⟩
      · simp [agentRebuildArg, Arg.wire, Arg.descriptorBytes, Nat.not_lt.mpr hrank]
      · simp [AgentArg.given, Arg.given, hview]
      · simp [hview]
  | some v =>
    obtain ⟨hrank, j, handle, hj, hhandle, hout⟩ := h.named i arg v harg hview
    obtain ⟨wire, hwire, hkind, hname, hdims⟩ : ∃ wire, s.out[i]? = some wire ∧ wire.kind = arg.wire.kind ∧
        wire.handle = handle ∧ wire.dims = plan.wireDims j v.desc.dims := ⟨_, hout, rfl, rfl, rfl⟩
    obtain ⟨hne, r, o, hrebuild, hrebuilt⟩ := h.rebuildView hj hrank hhandle hname hdims
    have hgiven : (AgentArg.view v.elem r o wire.dims : AgentArg β).given = arg.given := by
      rw [AgentArg.given, hdims, wireDims_sizes]
      cases arg with
      | scalar kind bytes => cases hview
      | memref elem desc | slot elem rank desc => simp [Arg.given, hview]
    refine ⟨wire, .view v.elem r o wire.dims, hwire, ?_, hgiven, by
      rw [hview]
      exact ⟨j, r, o, by rw [hdims], hrebuilt⟩⟩
    cases arg with
    | scalar kind bytes => cases hview
    | memref elem desc =>
      obtain ⟨desc, rfl, rfl⟩ := Option.map_eq_some_iff.mp hview
      rw [agentRebuildArg, hkind]
      simp only [Arg.wire]
      rw [hrebuild, hdims, length_wireDims]
      rfl
    | slot elem rank desc =>
      have hslots := hslot elem rank desc rfl
      obtain ⟨desc, rfl, hdesc⟩ := Option.bind_eq_some_iff.mp hview
      split_ifs at hdesc
      cases hdesc
      rw [agentRebuildArg, hkind]
      simp only [Arg.wire]
      rw [if_neg (Nat.not_lt.mpr hslots), if_neg (hname ▸ hne), hrebuild]
      rfl

end Vx.Remote
