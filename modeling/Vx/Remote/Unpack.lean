import Vx.Remote.Placement

namespace Vx.Remote

open Option Finset Int
open Lib.Strided

def addI64 (a b : ℤ) : ℤ := (a + b).bmod addressSpace

/-- The first loop: the index in each dimension of the element at `rest` in the dense copy, and what is left over. -/
def splitOffset : List (ℤ × ℤ) → ℤ → List ℤ × ℤ
  | [], rest => ([], rest)
  | dim :: dims, rest =>
    let idx := rest.tdiv (denseStride (dim :: dims) 0)
    let (idxs, rest) := splitOffset dims (addI64 rest (-mulI64 idx (denseStride (dim :: dims) 0)))
    (idx :: idxs, rest)

structure Way where
  into : Option ℕ
  times : ℤ
deriving DecidableEq

def wayOf (dims : List (ℤ × ℤ)) (dim : ℤ × ℤ) : Option Way :=
  if dim.1 ≤ 1 then some ⟨none, 0⟩
  else match (List.range dims.length).find? fun k =>
      1 < (dims.getD k (0, 0)).1 ∧ 0 < dim.2 ∧ dim.2.tmod (denseStride dims k) = 0 with
  | none => none
  | some k => some ⟨some k, dim.2.tdiv (denseStride dims k)⟩

def alongs (k : ℕ) (ways : List Way) (steps : List ℤ) : List ℤ :=
  List.zipWith (fun way n => if way.into = some k then mulI64 n way.times else 0) ways steps

def sumI64 (start : ℤ) (ns : List ℤ) : ℤ := ns.foldl addI64 start

def Way.stride (dims : List (ℤ × ℤ)) (way : Way) : ℤ :=
  match way.into with
  | none => 0
  | some k => mulI64 way.times (dims.getD k (0, 0)).2

def viewCopyUnpack (v d : Desc) : Option Desc :=
  if d.offset < 0 ∨ abiMaxRank < d.dims.length then none
  else
    let (idx, rest) := splitOffset v.dims d.offset
    if rest ≠ 0 then none
    else match d.dims.mapM (wayOf v.dims) with
    | none => none
    | some ways =>
      let reach k := sumI64 0 (alongs k ways (d.dims.map fun dim => dim.1 - 1))
      if (List.range v.dims.length).any fun k =>
          (if 0 < (v.dims.getD k (0, 0)).1 then (v.dims.getD k (0, 0)).1 else 1) ≤ addI64 (idx.getD k 0) (reach k) then
        none
      else
        some { d with
          offset := sumI64 v.offset (List.zipWith (fun i dim => mulI64 i dim.2) idx v.dims)
          dims := List.zipWith (fun dim way => (dim.1, way.stride v.dims)) d.dims ways }

def distance : List ℕ → List (ℤ × ℤ) → ℤ
  | i :: is, (_, stride) :: dims => i * stride + distance is dims
  | _, _ => 0

def Desc.element (d : Desc) (index : List ℕ) : ℤ := d.offset + distance index d.dims

def Desc.InRange (d : Desc) (index : List ℕ) : Prop := Inside index (layoutOf d.dims)

theorem distance_layoutOf {dims : List (ℤ × ℤ)} (h : NonNegative dims) (index : List ℕ) :
    distance index dims = offset index (layoutOf dims) := by
  induction dims generalizing index with
  | nil => cases index <;> rfl
  | cons dim dims ih =>
    cases index with
    | nil => rfl
    | cons i is =>
      have hdim := (h dim List.mem_cons_self).2
      have hcons : offset (i :: is) (layoutOf (dim :: dims)) = i * dim.2.toNat + offset is (layoutOf dims) := rfl
      rw [distance, ih fun d hd => h d (List.mem_cons_of_mem _ hd), hcons, natCast_add, natCast_mul,
        toNat_of_nonneg hdim]

structure Desc.Packs (v : Desc) : Prop where
  sizes : ∀ dim ∈ v.dims, 0 < dim.1
  nonNegative : NonNegative v.dims
  shift : 0 ≤ v.offset
  few : count (layoutOf v.dims) < 2 ^ 62
  ends : v.offset + last (layoutOf v.dims) < 2 ^ 62

/-- The numbers of the elements are `int64_t`. They may lie behind the dense copy, and then no `d'` is given. -/
def UnpackExact (v : Desc) : Prop :=
  ∀ d d', (∀ index, d.InRange index → d.element index < 2 ^ 63) →
    viewCopyUnpack v d = some d' → d'.dims.map Prod.fst = d.dims.map Prod.fst ∧
      ∀ index, d.InRange index → ∃ (n : ℕ) (own : List ℕ), d.element index = n ∧
        (indices (layoutOf v.dims))[n]? = some own ∧ d'.element index = v.element own

section

theorem addI64_eq {a b : ℤ} (hnonneg : 0 ≤ a + b) (hlt : a + b < 2 ^ 63) : addI64 a b = a + b := by
  rw [addI64, bmod_eq_of_le_mul_two] <;> simp only [addressSpace] <;> omega

theorem sumI64_eq {start : ℤ} {ns : List ℤ} (hstart : 0 ≤ start) (hns : ∀ n ∈ ns, 0 ≤ n)
    (hlt : start + ns.sum < 2 ^ 63) : sumI64 start ns = start + ns.sum := by
  induction ns generalizing start with
  | nil => simp [sumI64]
  | cons n ns ih =>
    have hn := hns n List.mem_cons_self
    have hrest : ∀ m ∈ ns, 0 ≤ m := fun m hm => hns m (List.mem_cons_of_mem _ hm)
    have hsum := List.sum_nonneg hrest
    rw [List.sum_cons] at hlt ⊢
    have hadd : addI64 start n = start + n := addI64_eq (by omega) (by omega)
    rw [sumI64, List.foldl_cons, ← sumI64, hadd, ih (by omega) hrest (by omega)]
    omega

variable {dims : List (ℤ × ℤ)}

theorem denseStride_zero (h : NonNegative dims) (dim : ℤ × ℤ) :
    denseStride (dim :: dims) 0 = count (layoutOf dims) := by
  obtain ⟨heq, hnonneg⟩ := toNat_prod (sizes_nonneg h)
  have hcount : count (layoutOf dims) = ((dims.map Prod.fst).map Int.toNat).prod := by
    simp [count, layoutOf, Function.comp_def]
  rw [hcount, ← heq, denseStride, toNat_of_nonneg hnonneg]
  rfl

theorem splitOffset_eq (hnonneg : NonNegative dims) {n : ℕ} (hn : n < 2 ^ 63) :
    ∃ (is : List ℕ) (rest : ℕ), is.length = dims.length ∧ splitOffset dims n = (is.map Int.ofNat, (rest : ℤ)) ∧
      offset is (dense (layoutOf dims)) + rest = n := by
  induction dims generalizing n with
  | nil => exact ⟨[], n, rfl, rfl, Nat.zero_add n⟩
  | cons dim dims ih =>
    have hrest : NonNegative dims := fun d hd => hnonneg d (List.mem_cons_of_mem _ hd)
    have hdiv : (n : ℤ).tdiv (count (layoutOf dims)) = ((n / count (layoutOf dims) : ℕ) : ℤ) := rfl
    have hmod := Nat.div_add_mod n (count (layoutOf dims))
    have hmul : mulI64 ((n / count (layoutOf dims) : ℕ) : ℤ) (count (layoutOf dims)) =
        ((count (layoutOf dims) * (n / count (layoutOf dims)) : ℕ) : ℤ) := by
      rw [mulI64_eq, natCast_mul, Int.mul_comm]
      · exact Int.mul_nonneg (natCast_nonneg _) (natCast_nonneg _)
      · rw [← natCast_mul, Nat.mul_comm]
        omega
    have hleft : addI64 n (-((count (layoutOf dims) * (n / count (layoutOf dims)) : ℕ) : ℤ)) =
        ((n % count (layoutOf dims) : ℕ) : ℤ) := by
      rw [addI64_eq] <;> omega
    obtain ⟨is, rest, hlength, hsplit, hoffset⟩ := ih hrest (n := n % count (layoutOf dims)) (by omega)
    refine ⟨n / count (layoutOf dims) :: is, rest, by rw [List.length_cons, List.length_cons, hlength], ?_, ?_⟩
    · rw [splitOffset, denseStride_zero hrest, hdiv, hmul, hleft, hsplit]
      rfl
    · change n / count (layoutOf dims) * count (layoutOf dims) + offset is (dense (layoutOf dims)) + rest = n
      rw [Nat.add_assoc, hoffset, Nat.mul_comm]
      exact hmod

def added (k : ℕ) (ways : List Way) (steps : List ℤ) : ℤ :=
  (List.zipWith (fun way n => if way.into = some k then n * way.times else 0) ways steps).sum

def led (stride : ℕ → ℤ) (ways : List Way) (steps : List ℤ) : ℤ :=
  (List.zipWith (fun way n => n * (way.into.elim 0 fun k => way.times * stride k)) ways steps).sum

theorem sum_added {n : ℕ} (stride : ℕ → ℤ) {ways : List Way} (hways : ∀ way ∈ ways, ∀ k, way.into = some k → k < n)
    (steps : List ℤ) : ∑ k ∈ Finset.range n, added k ways steps * stride k = led stride ways steps := by
  induction ways generalizing steps with
  | nil => simp [added, led]
  | cons way ways ih =>
    cases steps with
    | nil => simp [added, led]
    | cons m steps =>
      have hrest := ih (fun w hw => hways w (List.mem_cons_of_mem _ hw)) steps
      have hfirst : ∑ k ∈ Finset.range n, (if way.into = some k then m * way.times else 0) * stride k =
          m * (way.into.elim 0 fun k => way.times * stride k) := by
        cases hinto : way.into with
        | none => simp
        | some k =>
          have hk := hways way List.mem_cons_self k hinto
          simp [hk, Int.mul_assoc]
      simp only [added, led, List.zipWith_cons_cons, List.sum_cons, Int.add_mul, sum_add_distrib] at hrest hfirst ⊢
      rw [hrest, hfirst]

inductive Way.For (dims : List (ℤ × ℤ)) (dim : ℤ × ℤ) : Way → Prop
  | single (h : dim.1 ≤ 1) : Way.For dims dim ⟨none, 0⟩
  | along {k : ℕ} {times : ℤ} (hk : k < dims.length) (hsize : 1 < dim.1) (htimes : 0 < times)
      (hstride : dim.2 = times * denseStride dims k) : Way.For dims dim ⟨some k, times⟩

theorem wayOf_for {dims : List (ℤ × ℤ)} (hpos : ∀ k, 0 < denseStride dims k) {dim : ℤ × ℤ} {way : Way}
    (h : wayOf dims dim = some way) : Way.For dims dim way := by
  unfold wayOf at h
  split at h
  next hsingle =>
    cases h
    exact .single hsingle
  next hsize =>
    split at h
    · cases h
    next k hfind =>
      cases h
      have hprop := List.find?_some hfind
      simp only [decide_eq_true_eq] at hprop
      obtain ⟨-, hstride, hmod⟩ := hprop
      have hdvd := dvd_of_tmod_eq_zero hmod
      have heq := Int.tdiv_mul_cancel hdvd
      refine .along (List.mem_range.mp (List.mem_of_find?_eq_some hfind)) (by omega) ?_ heq.symm
      by_contra hle
      have := Int.mul_nonpos_of_nonpos_of_nonneg (Int.not_lt.mp hle) (hpos k).le
      omega

theorem forall₂_of_mapM {α β : Type} {f : α → Option β} {l : List α} {l' : List β} (h : l.mapM f = some l') :
    List.Forall₂ (fun x y => f x = some y) l l' := by
  induction l generalizing l' with
  | nil =>
    cases h
    exact .nil
  | cons x l ih =>
    rw [List.mapM_cons] at h
    obtain ⟨y, hy, h⟩ := Option.bind_eq_some_iff.mp h
    obtain ⟨ys, hys, h⟩ := Option.bind_eq_some_iff.mp h
    cases h
    exact .cons hy (ih hys)

variable {v ds : List (ℤ × ℤ)} {ways : List Way} {index : List ℕ}

theorem distance_eq_led (hways : List.Forall₂ (Way.For v) ds ways) (hindex : Inside index (layoutOf ds)) :
    distance index ds = led (denseStride v) ways (index.map Int.ofNat) := by
  induction hways generalizing index with
  | nil => cases index <;> simp [distance, led]
  | @cons dim way ds ways hway _ ih =>
    cases index with
    | nil => exact hindex.elim
    | cons i is =>
      obtain ⟨hi, his⟩ : i < dim.1.toNat ∧ Inside is (layoutOf ds) := hindex
      have hrest := ih his
      simp only [distance, led, List.map_cons, List.zipWith_cons_cons, List.sum_cons] at hrest ⊢
      rw [hrest]
      cases hway with
      | single h =>
        obtain rfl : i = 0 := by omega
        simp
      | along hk hsize htimes hstride => simp [hstride]

variable {steps : List ℤ}

theorem led_nonneg (hpos : ∀ k, 0 < denseStride v k) (hways : List.Forall₂ (Way.For v) ds ways)
    (hsteps : ∀ n ∈ steps, 0 ≤ n) : 0 ≤ led (denseStride v) ways steps := by
  induction hways generalizing steps with
  | nil => simp [led]
  | @cons dim way ds ways hway _ ih =>
    cases steps with
    | nil => simp [led]
    | cons n steps =>
      have hrest := ih fun m hm => hsteps m (List.mem_cons_of_mem _ hm)
      have hn := hsteps n List.mem_cons_self
      refine Int.add_nonneg ?_ hrest
      cases hway with
      | single h => simp
      | along hk hsize htimes hstride =>
        exact Int.mul_nonneg hn (Int.mul_nonneg htimes.le (hpos _).le)

theorem alongs_eq (hpos : ∀ k, 0 < denseStride v k) (hways : List.Forall₂ (Way.For v) ds ways)
    (hsteps : ∀ n ∈ steps, 0 ≤ n) (hled : led (denseStride v) ways steps < 2 ^ 63) (k : ℕ) :
    (∀ n ∈ alongs k ways steps, 0 ≤ n) ∧ (alongs k ways steps).sum = added k ways steps ∧
      added k ways steps ≤ led (denseStride v) ways steps := by
  induction hways generalizing steps with
  | nil => simp [alongs, added, led]
  | @cons dim way ds ways hway htail ih =>
    cases steps with
    | nil => simp [alongs, added, led]
    | cons n steps =>
      have hn := hsteps n List.mem_cons_self
      have hrest : ∀ m ∈ steps, 0 ≤ m := fun m hm => hsteps m (List.mem_cons_of_mem _ hm)
      have hnonneg := led_nonneg hpos htail hrest
      have hfirst : 0 ≤ n * (way.into.elim 0 fun k => way.times * denseStride v k) ∧
          (if way.into = some k then mulI64 n way.times else 0) = (if way.into = some k then n * way.times else 0) ∧
          0 ≤ (if way.into = some k then n * way.times else 0) ∧
          (if way.into = some k then n * way.times else 0) ≤
            n * (way.into.elim 0 fun k => way.times * denseStride v k) := by
        cases hway with
        | single h => simp
        | @along j times hj hsize htimes hstride =>
          have hprod := Int.mul_nonneg hn htimes.le
          have hone : n * times ≤ n * (times * denseStride v j) := by
            rw [← Int.mul_assoc]
            exact le_mul_of_one_le_right hprod (hpos j)
          simp only [led, List.zipWith_cons_cons, List.sum_cons, elim_some] at hled hnonneg
          have hmul : mulI64 n times = n * times := mulI64_eq hprod (by omega)
          simp only [elim_some, hmul]
          split
          · exact ⟨by omega, trivial, hprod, hone⟩
          · exact ⟨by omega, trivial, le_rfl, by omega⟩
      simp only [led, List.zipWith_cons_cons, List.sum_cons] at hled hnonneg ⊢
      obtain ⟨halongs, hsum, hle⟩ := ih hrest (by rw [led]; omega)
      simp only [alongs, added, led, List.zipWith_cons_cons, List.sum_cons] at halongs hsum hle ⊢
      refine ⟨fun m hm => ?_, by rw [hsum, hfirst.2.1], by omega⟩
      rcases List.mem_cons.mp hm with rfl | hm
      · rw [hfirst.2.1]
        exact hfirst.2.2.1
      · exact halongs m hm

theorem added_mono (hways : List.Forall₂ (Way.For v) ds ways) (hindex : Inside index (layoutOf ds))
    (k : ℕ) : 0 ≤ added k ways (index.map Int.ofNat) ∧
      added k ways (index.map Int.ofNat) ≤ added k ways (ds.map fun dim => dim.1 - 1) := by
  induction hways generalizing index with
  | nil => cases index <;> simp [added]
  | @cons dim way ds ways hway _ ih =>
    cases index with
    | nil => exact hindex.elim
    | cons i is =>
      obtain ⟨hi, his⟩ : i < dim.1.toNat ∧ Inside is (layoutOf ds) := hindex
      obtain ⟨hnonneg, hle⟩ := ih his
      simp only [added, List.map_cons, List.zipWith_cons_cons, List.sum_cons] at hnonneg hle ⊢
      have htimes : 0 ≤ way.times := by
        cases hway with
        | single h => exact le_rfl
        | along hk hsize htimes hstride => exact htimes.le
      have hmul : Int.ofNat i * way.times ≤ (dim.1 - 1) * way.times :=
        Int.mul_le_mul_of_nonneg_right (by simp only [ofNat_eq_natCast]; omega) htimes
      have hprod : 0 ≤ Int.ofNat i * way.times := Int.mul_nonneg (natCast_nonneg i) htimes
      split
      · exact ⟨by omega, by omega⟩
      · exact ⟨by omega, by omega⟩

end

variable {dims : List (ℤ × ℤ)}

theorem denseStride_pos (h : ∀ dim ∈ dims, 0 < dim.1) (k : ℕ) : 0 < denseStride dims k := by
  refine List.prod_pos fun n hn => ?_
  obtain ⟨dim, hdim, rfl⟩ := List.mem_map.mp hn
  exact h dim (List.mem_of_mem_drop hdim)

theorem length_denseDims (dims : List (ℤ × ℤ)) : (denseDims dims).length = dims.length := List.length_mapIdx

variable {k : ℕ}

theorem getD_denseDims (hk : k < dims.length) : ((denseDims dims).getD k (0, 0)).2 = denseStride dims k := by
  simp [denseDims, List.getD_eq_getElem?_getD, hk]

theorem distance_eq_sum {index : List ℕ} (h : index.length = dims.length) :
    distance index dims = ∑ k ∈ Finset.range dims.length, (index.getD k 0 : ℤ) * (dims.getD k (0, 0)).2 := by
  induction dims generalizing index with
  | nil => cases index <;> rfl
  | cons dim dims ih =>
    cases index with
    | nil => simp at h
    | cons i is =>
      rw [distance, ih (by simpa using h), List.length_cons, Finset.sum_range_succ']
      simp [Int.add_comm]

def moved (idx : List ℕ) (ways : List Way) (steps : List ℤ) : List ℕ :=
  idx.mapIdx fun k i => i + (added k ways steps).toNat

variable {idx : List ℕ} {ways : List Way}

theorem distance_moved {steps : List ℤ} (h : idx.length = dims.length)
    (hways : ∀ way ∈ ways, ∀ k, way.into = some k → k < dims.length) (hnonneg : ∀ k, 0 ≤ added k ways steps) :
    distance (moved idx ways steps) dims = distance idx dims + led (fun k => (dims.getD k (0, 0)).2) ways steps := by
  rw [distance_eq_sum (by simpa [moved] using h), distance_eq_sum h, ← sum_added _ hways, ← sum_add_distrib]
  refine sum_congr rfl fun k hk => ?_
  have hlt : k < idx.length := h ▸ Finset.mem_range.mp hk
  have hget : (moved idx ways steps).getD k 0 = idx.getD k 0 + (added k ways steps).toNat := by
    simp [moved, List.getD_eq_getElem?_getD, hlt]
  rw [hget, natCast_add, toNat_of_nonneg (hnonneg k), Int.add_mul]

variable {d : Desc}

theorem viewCopyUnpack_some {v d' : Desc} (h : viewCopyUnpack v d = some d') :
    0 ≤ d.offset ∧ (splitOffset v.dims d.offset).2 = 0 ∧ ∃ ways,
    List.Forall₂ (fun dim way => wayOf v.dims dim = some way) d.dims ways ∧
    (∀ k < v.dims.length, addI64 ((splitOffset v.dims d.offset).1.getD k 0)
      (sumI64 0 (alongs k ways (d.dims.map fun dim => dim.1 - 1))) <
        if 0 < (v.dims.getD k (0, 0)).1 then (v.dims.getD k (0, 0)).1 else 1) ∧ d' = { d with
      offset := sumI64 v.offset (List.zipWith (fun i dim => mulI64 i dim.2) (splitOffset v.dims d.offset).1 v.dims)
      dims := List.zipWith (fun dim way => (dim.1, way.stride v.dims)) d.dims ways } := by
  unfold viewCopyUnpack at h
  split at h
  · cases h
  next hoffset =>
  simp only at h
  split at h
  · cases h
  next hrest =>
  split at h
  · cases h
  next ways hways =>
    split at h
    · cases h
    next hreach =>
      cases h
      refine ⟨by omega, not_not.mp hrest, ways, forall₂_of_mapM hways, fun k hk => ?_, rfl⟩
      by_contra hle
      exact hreach (List.any_eq_true.mpr ⟨k, List.mem_range.mpr hk, by simpa using Int.not_lt.mp hle⟩)

theorem into_lt {v ds : List (ℤ × ℤ)} (h : List.Forall₂ (Way.For v) ds ways) :
    ∀ way ∈ ways, ∀ k, way.into = some k → k < v.length := by
  induction h with
  | nil => simp
  | cons hway _ ih =>
    intro w hw k hk
    rcases List.mem_cons.mp hw with rfl | hw
    · cases hway with
      | single => cases hk
      | along hlt => exact Option.some.inj hk ▸ hlt
    · exact ih w hw k hk

variable {ds : List (ℤ × ℤ)}

theorem unpacked_sizes {f : Way → ℤ} {P : ℤ × ℤ → Way → Prop}
    (h : List.Forall₂ P ds ways) : (List.zipWith (fun dim way => (dim.1, f way)) ds ways).map Prod.fst = ds.map Prod.fst := by
  induction h with
  | nil => rfl
  | cons _ _ ih => rw [List.zipWith_cons_cons, List.map_cons, List.map_cons, ih]

theorem led_congr {stride stride' : ℕ → ℤ} {n : ℕ}
    (hways : ∀ way ∈ ways, ∀ k, way.into = some k → k < n) (h : ∀ k < n, stride k = stride' k) (steps : List ℤ) :
    led stride ways steps = led stride' ways steps := by
  rw [← sum_added stride hways, ← sum_added stride' hways]
  exact sum_congr rfl fun k hk => by rw [h k (Finset.mem_range.mp hk)]

variable {v ds : List (ℤ × ℤ)}

theorem times_le_added (hways : List.Forall₂ (Way.For v) ds ways) (hsizes : ∀ dim ∈ ds, 0 < dim.1) (k : ℕ) :
    0 ≤ added k ways (ds.map fun dim => dim.1 - 1) ∧
      ∀ way ∈ ways, way.into = some k → 0 ≤ way.times ∧ way.times ≤ added k ways (ds.map fun dim => dim.1 - 1) := by
  induction hways with
  | nil => simp [added]
  | @cons dim way ds ways hway _ ih =>
    obtain ⟨hnonneg, hrest⟩ := ih fun d hd => hsizes d (List.mem_cons_of_mem _ hd)
    have hterm : 0 ≤ (if way.into = some k then (dim.1 - 1) * way.times else 0) ∧
        (way.into = some k → 0 ≤ way.times ∧ way.times ≤ (dim.1 - 1) * way.times) := by
      cases hway with
      | single => simp
      | @along j times hlt hsize htimes =>
        have hle : times ≤ (dim.1 - 1) * times := le_mul_of_one_le_left htimes.le (by omega)
        refine ⟨?_, fun _ => ⟨htimes.le, hle⟩⟩
        split
        · exact htimes.le.trans hle
        · exact le_rfl
    simp only [added, List.map_cons, List.zipWith_cons_cons, List.sum_cons] at hnonneg hrest ⊢
    refine ⟨by omega, fun w hw hk => ?_⟩
    rcases List.mem_cons.mp hw with rfl | hw
    · have htimes := hterm.2 hk
      rw [if_pos hk]
      exact ⟨htimes.1, by omega⟩
    · have htimes := hrest w hw hk
      exact ⟨htimes.1, by omega⟩

theorem distance_unpacked (hways : List.Forall₂ (Way.For v) ds ways) {stride : ℕ → ℤ}
    (hstride : ∀ way ∈ ways, way.stride v = way.into.elim 0 fun k => way.times * stride k) (index : List ℕ) :
    distance index (List.zipWith (fun dim way => (dim.1, way.stride v)) ds ways) =
      led stride ways (index.map Int.ofNat) := by
  induction hways generalizing index with
  | nil => cases index <;> simp [distance, led]
  | @cons dim way ds ways hway _ ih =>
    cases index with
    | nil => simp [distance, led]
    | cons i is =>
      have hrest := ih (fun w hw => hstride w (List.mem_cons_of_mem _ hw)) is
      simp only [distance, led, List.map_cons, List.zipWith_cons_cons, List.sum_cons] at hrest ⊢
      rw [hrest, hstride way List.mem_cons_self]
      rfl

theorem sum_products (hnonneg : NonNegative dims) (is : List ℕ) (hlt : distance is dims < 2 ^ 62) :
    (∀ n ∈ List.zipWith (fun i dim => mulI64 i dim.2) (is.map Int.ofNat) dims, 0 ≤ n) ∧
      (List.zipWith (fun i dim => mulI64 i dim.2) (is.map Int.ofNat) dims).sum = distance is dims := by
  induction dims generalizing is with
  | nil => cases is <;> simp [distance]
  | cons dim dims ih =>
    cases is with
    | nil => simp [distance]
    | cons i is =>
      have hrest : NonNegative dims := fun d hd => hnonneg d (List.mem_cons_of_mem _ hd)
      have hprod : 0 ≤ (i : ℤ) * dim.2 := Int.mul_nonneg (natCast_nonneg i) (hnonneg dim List.mem_cons_self).2
      have hdistance : 0 ≤ distance is dims := by
        rw [distance_layoutOf hrest]
        exact natCast_nonneg _
      rw [distance] at hlt
      obtain ⟨hall, hsum⟩ := ih hrest is (by omega)
      have hmul : mulI64 (Int.ofNat i) dim.2 = i * dim.2 := mulI64_eq hprod (by simp only [ofNat_eq_natCast]; omega)
      simp only [List.map_cons, List.zipWith_cons_cons, List.sum_cons, hmul, hsum, distance]
      refine ⟨fun n hn => ?_, trivial⟩
      rcases List.mem_cons.mp hn with rfl | hn
      · exact hprod
      · exact hall n hn

theorem inside_corner (ds : List (ℤ × ℤ)) (corner : ℤ × ℤ → ℕ) (h : ∀ dim ∈ ds, (corner dim : ℤ) < dim.1) :
    Inside (ds.map corner) (layoutOf ds) := by
  induction ds with
  | nil => trivial
  | cons dim ds ih =>
    refine ⟨?_, ih fun d hd => h d (List.mem_cons_of_mem _ hd)⟩
    have := h dim List.mem_cons_self
    omega

theorem sizes_pos_of_inside {index : List ℕ} (h : Inside index (layoutOf ds)) : ∀ dim ∈ ds, 0 < dim.1 := by
  induction ds generalizing index with
  | nil => simp
  | cons dim ds ih =>
    cases index with
    | nil => exact h.elim
    | cons i is =>
      obtain ⟨hi, his⟩ : i < dim.1.toNat ∧ Inside is (layoutOf ds) := h
      intro d hd
      rcases List.mem_cons.mp hd with rfl | hd
      · omega
      · exact ih his d hd

theorem distance_zero (ds : List (ℤ × ℤ)) : distance (ds.map fun _ => 0) ds = 0 := by
  induction ds with
  | nil => rfl
  | cons dim ds ih =>
    rw [List.map_cons, distance, ih]
    simp

theorem map_top (h : ∀ dim ∈ ds, 0 < dim.1) :
    (ds.map fun dim => (dim.1 - 1).toNat).map Int.ofNat = ds.map fun dim => dim.1 - 1 := by
  rw [List.map_map]
  refine List.map_congr_left fun dim hdim => ?_
  have := h dim hdim
  exact toNat_of_nonneg (by omega)

variable {v : Desc}

theorem corner_lt (hfor : List.Forall₂ (Way.For v.dims) d.dims ways) (hsizes : ∀ dim ∈ d.dims, 0 < dim.1)
    (hfits : ∀ index, d.InRange index → d.element index < 2 ^ 63) :
    d.offset + led (denseStride v.dims) ways (d.dims.map fun dim => dim.1 - 1) < 2 ^ 63 := by
  have htop := inside_corner d.dims (fun dim => (dim.1 - 1).toNat) fun dim hdim => by
    have := hsizes dim hdim
    omega
  have hfinal := hfits _ htop
  rwa [Desc.element, distance_eq_led hfor htop, map_top hsizes] at hfinal

theorem digit_le (hsizes : ∀ dim ∈ dims, 0 < dim.1) (hlength : idx.length = dims.length) (hk : k < dims.length) :
    (idx.getD k 0 : ℤ) ≤ distance idx (denseDims dims) := by
  have hpos := denseStride_pos hsizes
  rw [distance_eq_sum (hlength.trans (length_denseDims dims).symm), length_denseDims]
  have hterm : ∀ j ∈ Finset.range dims.length, 0 ≤ (idx.getD j 0 : ℤ) * ((denseDims dims).getD j (0, 0)).2 := by
    intro j hj
    rw [getD_denseDims (Finset.mem_range.mp hj)]
    exact Int.mul_nonneg (natCast_nonneg _) (hpos j).le
  refine le_trans ?_ (Finset.single_le_sum hterm (Finset.mem_range.mpr hk))
  rw [getD_denseDims hk]
  exact le_mul_of_one_le_right (natCast_nonneg _) (hpos k)

theorem stride_le_last (h : v.Packs) (hk : k < v.dims.length) :
    ((v.dims.getD k (0, 0)).1 - 1) * (v.dims.getD k (0, 0)).2 ≤ last (layoutOf v.dims) := by
  have hle := Int.ofNat_le.mpr (mul_le_last (layoutOf v.dims) k)
  have hmem : v.dims.getD k (0, 0) ∈ v.dims := by
    rw [List.getD_eq_getElem _ _ hk]
    exact List.getElem_mem hk
  obtain ⟨hsize, hstride⟩ := h.nonNegative _ hmem
  have hone := h.sizes _ hmem
  rw [getD_layoutOf, natCast_mul, toNat_of_nonneg hstride, Int.natCast_sub (by omega), toNat_of_nonneg hsize] at hle
  exact hle

theorem room (h : v.Packs) (hfor : List.Forall₂ (Way.For v.dims) d.dims ways) (hsizes : ∀ dim ∈ d.dims, 0 < dim.1)
    (hlength : idx.length = v.dims.length)
    (hled : distance idx (denseDims v.dims) + led (denseStride v.dims) ways (d.dims.map fun dim => dim.1 - 1) < 2 ^ 63)
    (hk : k < v.dims.length)
    (hreach : addI64 ((idx.map Int.ofNat).getD k 0) (sumI64 0 (alongs k ways (d.dims.map fun dim => dim.1 - 1))) <
      if 0 < (v.dims.getD k (0, 0)).1 then (v.dims.getD k (0, 0)).1 else 1) :
    (idx.getD k 0 : ℤ) + added k ways (d.dims.map fun dim => dim.1 - 1) < (v.dims.getD k (0, 0)).1 := by
  have hsteps : ∀ m ∈ d.dims.map fun dim => dim.1 - 1, 0 ≤ m := by
    intro m hm
    obtain ⟨dim, hdim, rfl⟩ := List.mem_map.mp hm
    have := hsizes dim hdim
    omega
  have hdigit := digit_le h.sizes hlength hk
  obtain ⟨hall, hsum, hle⟩ := alongs_eq (denseStride_pos h.sizes) hfor hsteps (by omega) k
  have hadded := (times_le_added hfor hsizes k).1
  have hsize : 0 < (v.dims.getD k (0, 0)).1 := by
    rw [List.getD_eq_getElem _ _ hk]
    exact h.sizes _ (List.getElem_mem hk)
  have hget : (idx.map Int.ofNat).getD k 0 = (idx.getD k 0 : ℤ) := by
    rw [List.getD_eq_getElem _ _ (by simpa [hlength] using hk), List.getD_eq_getElem _ _ (hlength ▸ hk), List.getElem_map]
    rfl
  rw [sumI64_eq le_rfl hall (by omega), hsum, Int.zero_add, hget, addI64_eq (by omega) (by omega), if_pos hsize] at hreach
  exact hreach

theorem way_stride (h : v.Packs) (hfor : List.Forall₂ (Way.For v.dims) d.dims ways) (hsizes : ∀ dim ∈ d.dims, 0 < dim.1)
    (hroom : ∀ k < v.dims.length, added k ways (d.dims.map fun dim => dim.1 - 1) < (v.dims.getD k (0, 0)).1) :
    ∀ way ∈ ways, way.stride v.dims = way.into.elim 0 fun k => way.times * (v.dims.getD k (0, 0)).2 := by
  intro way hway
  cases hinto : way.into with
  | none => simp [Way.stride, hinto]
  | some k =>
    have hk := into_lt hfor way hway k hinto
    obtain ⟨hnonneg, hle⟩ := (times_le_added hfor hsizes k).2 way hway hinto
    have hstride : 0 ≤ (v.dims.getD k (0, 0)).2 := by
      rw [List.getD_eq_getElem _ _ hk]
      exact (h.nonNegative _ (List.getElem_mem hk)).2
    have hlast := stride_le_last h hk
    have hmul : way.times * (v.dims.getD k (0, 0)).2 ≤ ((v.dims.getD k (0, 0)).1 - 1) * (v.dims.getD k (0, 0)).2 :=
      Int.mul_le_mul_of_nonneg_right (by have := hroom k hk; omega) hstride
    have hends := h.ends
    have hshift := h.shift
    simp only [Way.stride, hinto, elim_some]
    exact mulI64_eq (Int.mul_nonneg hnonneg hstride) (by omega)

theorem unpack_exact (h : v.Packs) : UnpackExact v := by
  intro d d' hfits hunpack
  obtain ⟨hnonneg, hnone, ways, hways, hreach, rfl⟩ := viewCopyUnpack_some hunpack
  have hfor : List.Forall₂ (Way.For v.dims) d.dims ways := hways.imp fun _ _ hway => wayOf_for (denseStride_pos h.sizes) hway
  have hinto := into_lt hfor
  refine ⟨unpacked_sizes hways, fun index hindex => ?_⟩
  have hsizes := sizes_pos_of_inside hindex
  have hcorner := corner_lt hfor hsizes hfits
  have hled : 0 ≤ led (denseStride v.dims) ways (d.dims.map fun dim => dim.1 - 1) :=
      led_nonneg (denseStride_pos h.sizes) hfor fun m hm => by
    obtain ⟨dim, hdim, rfl⟩ := List.mem_map.mp hm
    have := hsizes dim hdim
    omega
  obtain ⟨n, hn⟩ := eq_ofNat_of_zero_le hnonneg
  obtain ⟨idx, rest, hlength, hsplit, hoffset⟩ := splitOffset_eq h.nonNegative (n := n) (by omega)
  rw [hn, hsplit] at hreach hnone
  have hdense : distance idx (denseDims v.dims) = n := by
    rw [distance_layoutOf (denseDims_nonNegative h.nonNegative), layoutOf_denseDims h.nonNegative, ← hoffset]
    omega
  -- No index leaves its dimension, so none carries into the next one.
  have hroom : ∀ k < v.dims.length,
      (idx.getD k 0 : ℤ) + added k ways (d.dims.map fun dim => dim.1 - 1) < (v.dims.getD k (0, 0)).1 :=
    fun k hk => room h hfor hsizes hlength (by omega) hk (hreach k hk)
  have hsteps := added_mono hfor hindex
  have hinside {is : List ℕ} (hlen : is.length = idx.length)
      (hget : ∀ k < idx.length, (is.getD k 0 : ℤ) ≤ idx.getD k 0 + added k ways (d.dims.map fun dim => dim.1 - 1)) :
      Inside is (layoutOf v.dims) := by
    refine inside_of_getD_lt (by simp [layoutOf, hlen, hlength]) fun k hk => ?_
    have hk' : k < v.dims.length := by simpa [layoutOf] using hk
    have := hroom k hk'
    have := hget k (hlength ▸ hk')
    rw [getD_layoutOf]
    omega
  have hidx : Inside idx (layoutOf v.dims) := by
    refine hinside rfl fun k _ => ?_
    have := hsteps k
    omega
  have hown : Inside (moved idx ways (index.map Int.ofNat)) (layoutOf v.dims) := by
    refine hinside (by simp [moved]) fun k hk => ?_
    have hget : (moved idx ways (index.map Int.ofNat)).getD k 0 =
        idx.getD k 0 + (added k ways (index.map Int.ofNat)).toNat := by
      simp [moved, List.getD_eq_getElem?_getD, hk]
    have := hsteps k
    rw [hget]
    omega
  have hled' : led (fun k => ((denseDims v.dims).getD k (0, 0)).2) ways (index.map Int.ofNat) = distance index d.dims := by
    rw [distance_eq_led hfor hindex]
    exact led_congr hinto (fun k hk => getD_denseDims hk) _
  have hplace : (offset (moved idx ways (index.map Int.ofNat)) (dense (layoutOf v.dims)) : ℤ) = d.element index := by
    rw [← layoutOf_denseDims h.nonNegative, ← distance_layoutOf (denseDims_nonNegative h.nonNegative),
      distance_moved (hlength.trans (length_denseDims _).symm) (by rwa [length_denseDims]) fun k => (hsteps k).1, hdense,
      hled', Desc.element, hn]
  refine ⟨_, moved idx ways (index.map Int.ofNat), hplace.symm, getElem?_indices hown, ?_⟩
  have hsum : distance idx v.dims ≤ last (layoutOf v.dims) := by
    rw [distance_layoutOf h.nonNegative]
    exact Int.ofNat_le.mpr (offset_le_last hidx)
  have hends := h.ends
  have hshift := h.shift
  obtain ⟨hall, hproducts⟩ := sum_products h.nonNegative idx (by omega)
  have hstrides := way_stride h hfor hsizes fun k hk => by
    have := hroom k hk
    omega
  simp only [Desc.element]
  rw [hn, hsplit, sumI64_eq hshift hall (by omega), hproducts, distance_unpacked hfor hstrides,
    distance_moved hlength hinto fun k => (hsteps k).1]
  omega

end Vx.Remote
