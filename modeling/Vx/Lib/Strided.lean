import Mathlib

/-!
Strided layouts. A layout is a list of dimensions, each with a size and a stride, and an element is named by one index
for each dimension.
-/

namespace Vx.Lib.Strided

open List Option

abbrev Layout := List (ℕ × ℕ)

def offset : List ℕ → Layout → ℕ
  | i :: is, (_, stride) :: dims => i * stride + offset is dims
  | _, _ => 0

def Inside : List ℕ → Layout → Prop
  | [], [] => True
  | i :: is, (size, _) :: dims => i < size ∧ Inside is dims
  | _, _ => False

instance Inside.decidable : ∀ is dims, Decidable (Inside is dims)
  | [], [] => isTrue trivial
  | i :: is, (size, _) :: dims => @instDecidableAnd (i < size) (Inside is dims) _ (Inside.decidable is dims)
  | [], _ :: _ => isFalse id
  | _ :: _, [] => isFalse id

def count (dims : Layout) : ℕ := (dims.map Prod.fst).prod

def last : Layout → ℕ
  | [] => 0
  | (size, stride) :: dims => (size - 1) * stride + last dims

def dense : Layout → Layout
  | [] => []
  | (size, _) :: dims => (size, count dims) :: dense dims

def indices : Layout → List (List ℕ)
  | [] => [[]]
  | (size, _) :: dims => (List.range size).flatMap fun i => (indices dims).map (i :: ·)

def offsets (dims : Layout) : List ℕ := (indices dims).map fun is => offset is dims

section

theorem count_cons (dim : ℕ × ℕ) (dims : Layout) : count (dim :: dims) = dim.1 * count dims := rfl

variable {is : List ℕ} {dims : Layout}

theorem offset_le_last (h : Inside is dims) : offset is dims ≤ last dims := by
  induction dims generalizing is with
  | nil => cases is <;> simp [offset]
  | cons dim dims ih =>
    cases is with
    | nil => exact h.elim
    | cons i is =>
      have hi : i * dim.2 ≤ (dim.1 - 1) * dim.2 := Nat.mul_le_mul_right _ (by have := h.1; omega)
      exact Nat.add_le_add hi (ih h.2)

theorem exists_offset_eq_last (h : ∀ dim ∈ dims, 0 < dim.1) : ∃ is, Inside is dims ∧ offset is dims = last dims := by
  induction dims with
  | nil => exact ⟨[], trivial, rfl⟩
  | cons dim dims ih =>
    obtain ⟨is, his, hoffset⟩ := ih fun d hd => h d (mem_cons_of_mem _ hd)
    have hpos := h dim mem_cons_self
    exact ⟨(dim.1 - 1) :: is, ⟨by omega, his⟩, by rw [offset, last, hoffset]⟩

theorem last_perm {dims' : Layout} (h : dims.Perm dims') : last dims = last dims' := by
  induction h with
  | nil => rfl
  | cons dim _ ih => rw [last, last, ih]
  | swap dim dim' dims =>
    simp only [last]
    omega
  | trans _ _ ih ih' => exact ih.trans ih'

theorem mem_indices : is ∈ indices dims ↔ Inside is dims := by
  induction dims generalizing is with
  | nil => cases is <;> simp [indices, Inside]
  | cons dim dims ih =>
    cases is with
    | nil => simp [indices, Inside]
    | cons i is => simp [indices, Inside, ih]

theorem mem_offsets {o : ℕ} : o ∈ offsets dims ↔ ∃ is, Inside is dims ∧ offset is dims = o := by
  simp [offsets, mem_indices]

theorem length_indices (dims : Layout) : (indices dims).length = count dims := by
  induction dims with
  | nil => rfl
  | cons dim dims ih => simp [indices, length_flatMap, ih, count_cons]

theorem length_offsets (dims : Layout) : (offsets dims).length = count dims := by
  rw [offsets, length_map, length_indices]

theorem offset_dense_lt (h : Inside is dims) : offset is (dense dims) < count dims := by
  induction dims generalizing is with
  | nil => cases is <;> simp [offset, dense, count]
  | cons dim dims ih =>
    cases is with
    | nil => exact h.elim
    | cons i is =>
      have hrest := ih h.2
      calc i * count dims + offset is (dense dims) < i * count dims + count dims := by omega
        _ = (i + 1) * count dims := by ring
        _ ≤ dim.1 * count dims := Nat.mul_le_mul_right _ h.1

theorem inside_dense : Inside is (dense dims) ↔ Inside is dims := by
  induction dims generalizing is with
  | nil => rfl
  | cons dim dims ih =>
    cases is with
    | nil => rfl
    | cons i is => exact and_congr_right fun _ => ih

theorem getElem?_flatMap {γ δ : Type} {k : ℕ} {f : γ → List δ} {l : List γ} (hf : ∀ x ∈ l, (f x).length = k) (i : ℕ)
    {j : ℕ} (hj : j < k) : (l.flatMap f)[i * k + j]? = l[i]?.bind fun x => (f x)[j]? := by
  induction l generalizing i with
  | nil => simp
  | cons x l ih =>
    have hx := hf x mem_cons_self
    rw [flatMap_cons]
    cases i with
    | zero =>
      rw [Nat.zero_mul, Nat.zero_add, List.getElem?_append_left (by omega)]
      rfl
    | succ i =>
      have hle : k ≤ (i + 1) * k + j := by
        rw [Nat.succ_mul]
        omega
      have hsub : (i + 1) * k + j - k = i * k + j := by
        rw [Nat.succ_mul]
        omega
      rw [List.getElem?_append_right (by omega), hx, hsub, ih fun y hy => hf y (mem_cons_of_mem _ hy)]
      rfl

theorem getElem?_indices (h : Inside is dims) : (indices dims)[offset is (dense dims)]? = some is := by
  induction dims generalizing is with
  | nil =>
    cases is with
    | nil => rfl
    | cons i is => exact h.elim
  | cons dim dims ih =>
    cases is with
    | nil => exact h.elim
    | cons i is =>
      have hrest := offset_dense_lt h.2
      have hlength : ∀ i ∈ List.range dim.1, ((indices dims).map (i :: ·)).length = count dims := by
        intro i _
        rw [length_map, length_indices]
      have hi : (List.range dim.1)[i]? = some i := by simp [h.1]
      change ((List.range dim.1).flatMap fun i => (indices dims).map (i :: ·))[i * count dims + offset is (dense dims)]? = _
      rw [getElem?_flatMap hlength i hrest, hi, bind_some, List.getElem?_map, ih h.2]
      rfl

theorem getElem?_offsets (h : Inside is dims) : (offsets dims)[offset is (dense dims)]? = some (offset is dims) := by
  rw [offsets, List.getElem?_map, getElem?_indices h]
  rfl

theorem indices_append (dims dims' : Layout) :
    indices (dims ++ dims') = (indices dims).flatMap fun is => (indices dims').map (is ++ ·) := by
  induction dims with
  | nil => simp [indices]
  | cons dim dims ih =>
    simp only [cons_append, indices, ih, flatMap_assoc, map_flatMap, flatMap_map, List.map_map]
    rfl

theorem offset_append {is is' : List ℕ} {dims' : Layout} (h : is.length = dims.length) :
    offset (is ++ is') (dims ++ dims') = offset is dims + offset is' dims' := by
  induction dims generalizing is with
  | nil =>
    obtain rfl : is = [] := List.length_eq_zero_iff.mp h
    simp [offset]
  | cons dim dims ih =>
    cases is with
    | nil => simp at h
    | cons i is =>
      simp only [cons_append, offset, ih (by simpa using h)]
      omega

theorem Inside.length_eq {is : List ℕ} (h : Inside is dims) : is.length = dims.length := by
  induction dims generalizing is with
  | nil =>
    cases is with
    | nil => rfl
    | cons i is => exact h.elim
  | cons dim dims ih =>
    cases is with
    | nil => exact h.elim
    | cons i is => simp [ih h.2]

theorem offsets_append (dims dims' : Layout) :
    offsets (dims ++ dims') = (offsets dims).flatMap fun o => (offsets dims').map (o + ·) := by
  simp only [offsets, indices_append, map_flatMap, flatMap_map, List.map_map]
  refine flatMap_congr fun is hin => ?_
  refine map_congr_left fun is' _ => ?_
  exact offset_append (mem_indices.mp hin).length_eq

theorem offsets_singleton (size stride : ℕ) : offsets [(size, stride)] = (List.range size).map (· * stride) := by
  simp [offsets, indices, offset, ← map_eq_flatMap]

theorem offsets_filter (h : ∀ dim ∈ dims, 0 < dim.1) : offsets (dims.filter fun dim => 1 < dim.1) = offsets dims := by
  induction dims with
  | nil => rfl
  | cons dim dims ih =>
    have hrest := ih fun d hd => h d (mem_cons_of_mem _ hd)
    have hcons : ∀ dims : Layout, offsets (dim :: dims) = (offsets [dim]).flatMap fun o => (offsets dims).map (o + ·) :=
      fun dims => offsets_append [dim] dims
    rw [filter_cons]
    split
    · rw [hcons (dims.filter _), hcons dims, hrest]
    next hone =>
      have hsize : dim.1 = 1 := by
        have := h dim mem_cons_self
        simp only [decide_eq_true_eq] at hone
        omega
      rw [hrest, hcons, show dim = (dim.1, dim.2) from rfl, hsize, offsets_singleton]
      simp

theorem range_mul (n k : ℕ) : List.range (n * k) = (List.range n).flatMap fun i => (List.range k).map (i * k + ·) := by
  induction n with
  | zero => simp
  | succ n ih =>
    rw [Nat.succ_mul, range_add, ih, range_succ, flatMap_append, flatMap_singleton]

variable {ι : Type} (size stride : ι → ℕ)

def Nested : List ι → Prop
  | [] => True
  | [d] => 0 < stride d
  | d :: e :: ds => stride e * size e ≤ stride d ∧ Nested (e :: ds)

variable {size stride} {f : ι → ℕ}

theorem Nested.sum_lt {d : ι} {ds : List ι} (h : Nested size stride (d :: ds)) (hf : ∀ e ∈ d :: ds, f e < size e) :
    ((d :: ds).map fun e => f e * stride e).sum < stride d * size d ∧ (ds.map fun e => f e * stride e).sum < stride d := by
  induction ds generalizing d with
  | nil =>
    have hd := hf d mem_cons_self
    have hpos : 0 < stride d := h
    refine ⟨?_, by simpa using hpos⟩
    simp only [map_cons, map_nil, sum_cons, sum_nil, Nat.add_zero]
    rw [Nat.mul_comm]
    exact Nat.mul_lt_mul_of_pos_left hd hpos
  | cons e ds ih =>
    obtain ⟨hle, hrest⟩ := h
    have hsum := (ih hrest fun e' he' => hf e' (mem_cons_of_mem _ he')).1
    have hlt : ((e :: ds).map fun e => f e * stride e).sum < stride d := by omega
    refine ⟨?_, hlt⟩
    have hd := hf d mem_cons_self
    calc f d * stride d + ((e :: ds).map fun e => f e * stride e).sum < f d * stride d + stride d := by omega
      _ = stride d * (f d + 1) := by ring
      _ ≤ stride d * size d := Nat.mul_le_mul_left _ hd

theorem Nested.unique {ds : List ι} (h : Nested size stride ds) {g : ι → ℕ} (hf : ∀ d ∈ ds, f d < size d)
    (hg : ∀ d ∈ ds, g d < size d) (heq : (ds.map fun d => f d * stride d).sum = (ds.map fun d => g d * stride d).sum) :
    ∀ d ∈ ds, f d = g d := by
  induction ds with
  | nil => simp
  | cons d ds ih =>
    have hf' := (h.sum_lt hf).2
    have hg' := (h.sum_lt hg).2
    rw [map_cons, sum_cons, map_cons, sum_cons] at heq
    have hd : f d = g d := by
      have hpos : 0 < stride d := by omega
      have hdiv := congrArg (· / stride d) heq
      simpa only [Nat.mul_comm _ (stride d), Nat.mul_add_div hpos, Nat.div_eq_of_lt hf', Nat.div_eq_of_lt hg',
        Nat.add_zero] using hdiv
    have hrest : Nested size stride ds := by
      cases ds with
      | nil => trivial
      | cons e ds => exact h.2
    intro e he
    rcases List.mem_cons.mp he with rfl | he
    · exact hd
    · refine ih hrest (fun d hd => hf d (mem_cons_of_mem _ hd)) (fun d hd => hg d (mem_cons_of_mem _ hd)) ?_ e he
      rw [hd] at heq
      omega

theorem offset_eq_sum (h : is.length = dims.length) :
    offset is dims = ((List.range dims.length).map fun d => is.getD d 0 * (dims.getD d (0, 0)).2).sum := by
  induction dims generalizing is with
  | nil => cases is <;> rfl
  | cons dim dims ih =>
    cases is with
    | nil => simp at h
    | cons i is =>
      rw [offset, ih (by simpa using h), length_cons, range_succ_eq_map]
      simp [Function.comp_def]

theorem sum_filter_of_zero {p : ι → Bool} {l : List ι} (h : ∀ d ∈ l, p d = false → f d = 0) :
    ((l.filter p).map f).sum = (l.map f).sum := by
  induction l with
  | nil => rfl
  | cons d l ih =>
    have hrest := ih fun e he => h e (mem_cons_of_mem _ he)
    by_cases hd : p d = true
    · rw [filter_cons_of_pos hd, map_cons, sum_cons, map_cons, sum_cons, hrest]
    · have hzero := h d mem_cons_self (by simpa using hd)
      rw [filter_cons_of_neg hd, map_cons, sum_cons, hrest, hzero, Nat.zero_add]

theorem Inside.getD_lt (h : Inside is dims) {d : ℕ} (hd : d < dims.length) : is.getD d 0 < (dims.getD d (0, 0)).1 := by
  induction dims generalizing is d with
  | nil => simp at hd
  | cons dim dims ih =>
    cases is with
    | nil => exact h.elim
    | cons i is =>
      cases d with
      | zero => simpa using h.1
      | succ d => simpa using ih h.2 (by simpa using hd)

theorem inside_of_getD_lt (hlength : is.length = dims.length)
    (h : ∀ d < dims.length, is.getD d 0 < (dims.getD d (0, 0)).1) : Inside is dims := by
  induction dims generalizing is with
  | nil =>
    obtain rfl := List.length_eq_zero_iff.mp hlength
    trivial
  | cons dim dims ih =>
    cases is with
    | nil => simp at hlength
    | cons i is =>
      refine ⟨by simpa using h 0 (by simp), ih (by simpa using hlength) fun d hd => ?_⟩
      simpa using h (d + 1) (by simpa using hd)

theorem offset_injective {ds : List ℕ}
    (hperm : ds.Perm ((List.range dims.length).filter fun d => 1 < (dims.getD d (0, 0)).1))
    (hnested : Nested (fun d => (dims.getD d (0, 0)).1) (fun d => (dims.getD d (0, 0)).2) ds) {is' : List ℕ}
    (h : Inside is dims) (h' : Inside is' dims) (heq : offset is dims = offset is' dims) : is = is' := by
  have hzero : ∀ {is : List ℕ}, Inside is dims → ∀ d ∈ List.range dims.length,
      decide (1 < (dims.getD d (0, 0)).1) = false → is.getD d 0 = 0 := by
    intro is h d hd hone
    have hlt := h.getD_lt (List.mem_range.mp hd)
    simp only [decide_eq_false_iff_not] at hone
    omega
  have hsum : ∀ {is : List ℕ}, Inside is dims →
      offset is dims = (ds.map fun d => is.getD d 0 * (dims.getD d (0, 0)).2).sum := by
    intro is h
    rw [offset_eq_sum h.length_eq, (hperm.map _).sum_eq, sum_filter_of_zero]
    intro d hd hone
    rw [hzero h d hd hone, Nat.zero_mul]
  have hbound : ∀ {is : List ℕ}, Inside is dims → ∀ d ∈ ds, is.getD d 0 < (dims.getD d (0, 0)).1 := by
    intro is h d hd
    have hd := mem_of_mem_filter (hperm.mem_iff.mp hd)
    exact h.getD_lt (List.mem_range.mp hd)
  rw [hsum h, hsum h'] at heq
  have hsame := hnested.unique (hbound h) (hbound h') heq
  have hall : ∀ d < dims.length, is.getD d 0 = is'.getD d 0 := by
    intro d hd
    by_cases hone : 1 < (dims.getD d (0, 0)).1
    · apply hsame
      rw [hperm.mem_iff, mem_filter]
      exact ⟨List.mem_range.mpr hd, by simpa using hone⟩
    · have hfalse : decide (1 < (dims.getD d (0, 0)).1) = false := by simpa using hone
      rw [hzero h d (List.mem_range.mpr hd) hfalse, hzero h' d (List.mem_range.mpr hd) hfalse]
  refine ext_getElem (h.length_eq.trans h'.length_eq.symm) fun d hd hd' => ?_
  have := hall d (h.length_eq ▸ hd)
  rwa [getD_eq_getElem _ _ hd, getD_eq_getElem _ _ hd'] at this

theorem indices_nodup (dims : Layout) : (indices dims).Nodup := by
  induction dims with
  | nil => simp [indices]
  | cons dim dims ih =>
    refine List.nodup_flatMap.mpr ⟨fun i _ => ih.map (cons_injective), ?_⟩
    refine List.nodup_range.imp fun {i j} hij => ?_
    intro is hi hj
    obtain ⟨_, _, rfl⟩ := List.mem_map.mp hi
    obtain ⟨_, _, heq⟩ := List.mem_map.mp hj
    exact hij (List.cons.inj heq).1.symm

theorem offsets_nodup
    (hinj : ∀ is is', Inside is dims → Inside is' dims → offset is dims = offset is' dims → is = is') :
    (offsets dims).Nodup :=
  (indices_nodup dims).map_on fun is hin is' hin' heq => hinj is is' (mem_indices.mp hin) (mem_indices.mp hin') heq

end

def next : Layout → List ℕ → Option (List ℕ)
  | (size, _) :: dims, i :: is =>
    match next dims is with
    | some is => some (i :: is)
    | none => if i + 1 < size then some ((i + 1) :: is.map fun _ => 0) else none
  | _, _ => none

inductive Visits {γ : Type} (step : γ → Option γ) : γ → List γ → Prop
  | stop {x : γ} (h : step x = none) : Visits step x [x]
  | more {x y : γ} {l : List γ} (h : step x = some y) (hl : Visits step y l) : Visits step x (x :: l)

variable {dims : Layout}

theorem length_of_next {is is' : List ℕ} (h : next dims is = some is') : is'.length = is.length := by
  induction dims generalizing is is' with
  | nil => simp [next] at h
  | cons dim dims ih =>
    cases is with
    | nil => simp [next] at h
    | cons i is =>
      simp only [next] at h
      split at h
      next hnext =>
        cases h
        simp [ih hnext]
      next =>
        split at h
        · cases h
          simp
        · cases h

theorem visits_turn {dim : ℕ × ℕ} {i : ℕ} {is : List ℕ} {l m : List (List ℕ)}
    (h : Visits (next dims) is l) (hlength : is.length = dims.length)
    (hm : i + 1 < dim.1 ∧ Visits (next (dim :: dims)) ((i + 1) :: dims.map fun _ => 0) m ∨ dim.1 ≤ i + 1 ∧ m = []) :
    Visits (next (dim :: dims)) (i :: is) (l.map (i :: ·) ++ m) := by
  induction h with
  | @stop is hstop =>
    have hzeros : (is.map fun _ => 0) = dims.map fun _ => 0 := by
      rw [map_const', map_const', hlength]
    rcases hm with ⟨hlt, hm⟩ | ⟨hle, rfl⟩
    · exact .more (by simp [next, hstop, hlt, hzeros]) hm
    · exact .stop (by simp [next, hstop, Nat.not_lt.mpr hle])
  | @more is is' l hstep hl ih =>
    refine .more ?_ (ih ((length_of_next hstep).trans hlength))
    simp [next, hstep]

theorem visits_indices (h : ∀ dim ∈ dims, 0 < dim.1) : Visits (next dims) (dims.map fun _ => 0) (indices dims) := by
  induction dims with
  | nil => exact .stop rfl
  | cons dim dims ih =>
    have hrest := ih fun d hd => h d (mem_cons_of_mem _ hd)
    have hpos := h dim mem_cons_self
    -- From the turn `i` of the first dimension on, by induction on the turns that are left.
    have hturns : ∀ n i, i + n + 1 = dim.1 → Visits (next (dim :: dims)) (i :: dims.map fun _ => 0)
        ((List.range' i (n + 1)).flatMap fun j => (indices dims).map (j :: ·)) := by
      intro n
      induction n with
      | zero =>
        intro i hi
        have hlast : dim.1 ≤ i + 1 := by omega
        simpa using visits_turn hrest (by simp) (.inr ⟨hlast, rfl⟩)
      | succ n ihn =>
        intro i hi
        exact visits_turn hrest (by simp) (.inl ⟨by omega, ihn (i + 1) (by omega)⟩)
    have hall := hturns (dim.1 - 1) 0 (by omega)
    rw [Nat.sub_add_cancel hpos, ← range_eq_range'] at hall
    exact hall

end Vx.Lib.Strided
