import Vx.Ast
import Vx.Lib.MachineInt

/-!
The size of a tensor whose shape is written out: `const_dim` and `static_tensor_size` of `hir/memory.rs`. An `i128` and a
`u64` are integers in their ranges.
-/

namespace Vx.Layout

open List Option
open Lib.MachineInt

def elementBits : ElementType → Option ℕ
  | .bool => some 1
  | .i4 | .u4 | .f4e2m1 => some 4
  | .i8 | .u8 | .f8e4m3 | .f8e5m2 => some 8
  | .f16 | .bf16 | .i16 | .u16 => some 16
  | .f32 | .i32 | .u32 => some 32
  | .f64 | .i64 | .u64 | .usize => some 64
  | .i128 | .u128 => some 128
  | .generic _ => none

def elementBytes (elem : ElementType) : Option ℕ := (elementBits elem).map fun bits => (bits + 7) / 8

inductive StaticSize
  | bytes (b : ℤ)
  | notConstant
  | negativeExtent
  | overflows
deriving DecidableEq

inductive Unfolded
  | notConstant
  | overflows
deriving DecidableEq

inductive Dim
  | static (e : Expr)
  | dyn

def Dim.asStatic : Dim → Option Expr
  | .static e => some e
  | .dyn => none

def decimal (text : String) : Option ℕ :=
  match text.toList with
  | '+' :: digits => unsigned digits
  | digits => unsigned digits
where
  unsigned (digits : List Char) : Option ℕ := if digits = [] then none else digitsValue 0 digits

def checkedU64 (v : ℤ) : Option ℤ := if 0 ≤ v ∧ v < 2 ^ 64 then some v else none

def checkedI128 (v : ℤ) : Option ℤ := if -2 ^ 127 ≤ v ∧ v < 2 ^ 127 then some v else none

def bitsI128 (op : BitVec 128 → BitVec 128 → BitVec 128) (l r : ℤ) : ℤ :=
  (op (BitVec.ofInt 128 l) (BitVec.ofInt 128 r)).toInt

def shiftCount (r : ℤ) : Option ℕ := if 0 ≤ r ∧ r < 2 ^ 32 then if 64 ≤ r then none else some r.toNat else none

def foldOp (op : BinaryOp) (l r : ℤ) : Option (Option ℤ) :=
  match op with
  | .add => some (checkedI128 (l + r))
  | .sub => some (checkedI128 (l - r))
  | .mul => some (checkedI128 (l * r))
  | .div => if r = 0 then none else some (checkedI128 (l.tdiv r))
  | .rem => if r = 0 then none else some ((checkedI128 (l.tdiv r)).map fun _ => l.tmod r)
  | .bitAnd => some (some (bitsI128 (· &&& ·) l r))
  | .bitOr => some (some (bitsI128 (· ||| ·) l r))
  | .bitXor => some (some (bitsI128 (· ^^^ ·) l r))
  -- a shift to the left keeps the low 128 bits and never overflows
  | .shl => (shiftCount r).map fun s => some (toI128 (l * 2 ^ s))
  | .shr => (shiftCount r).map fun s => some (l / 2 ^ s)
  | .matMul => none

def constDim : Expr → Except Unfolded ℤ
  | .number value _ =>
    match (decimal value).bind fun n : ℕ => checkedU64 n with
    | some v => .ok v
    | none => .error .notConstant
  | .binaryOp lhs op rhs _ => do
    let l ← constDim lhs
    let r ← constDim rhs
    match foldOp op l r with
    | none => .error .notConstant
    | some none => .error .overflows
    | some (some v) => .ok v
  | .unaryOp .neg e => do
    let v ← constDim e
    return toI128 (-v)
  | _ => .error .notConstant

def foldDim (acc : List ℤ × Bool) (d : Dim) : Option (List ℤ × Bool) :=
  match d.asStatic with
  | none => none
  | some e =>
    match constDim e with
    | .ok v => some (acc.1 ++ [v], acc.2)
    | .error .overflows => some (acc.1, true)
    | .error .notConstant => none

def mulExtent (bytes : Option ℤ) (v : ℤ) : Option ℤ :=
  bytes.bind fun b => (checkedU64 v).bind fun v => checkedU64 (b * v)

def staticTensorSize (elem : ElementType) (dims : List Dim) : StaticSize :=
  if dims.isEmpty then .notConstant
  else match dims.foldlM foldDim ([], false) with
    | none => .notConstant
    | some (extents, overflows) =>
      if extents.any (· < 0) then .negativeExtent
      else match elementBytes elem with
        | none => .notConstant
        | some elemBytes =>
          if overflows then .overflows
          else match extents.foldl mulExtent (some elemBytes) with
            | some b => if b ≤ 2 ^ 63 - 1 then .bytes b else .overflows
            | none => .overflows

/-! The same extents over the unbounded integers. -/

def exactOp (op : BinaryOp) (l r : ℤ) : Option ℤ :=
  match op with
  | .add => some (l + r)
  | .sub => some (l - r)
  | .mul => some (l * r)
  | .div => if r = 0 then none else some (l.tdiv r)
  | .rem => if r = 0 then none else some (l.tmod r)
  | .bitAnd => some (bitsI128 (· &&& ·) l r)
  | .bitOr => some (bitsI128 (· ||| ·) l r)
  | .bitXor => some (bitsI128 (· ^^^ ·) l r)
  | .shl => if 0 ≤ r ∧ r < 64 then some (l * 2 ^ r.toNat) else none
  | .shr => if 0 ≤ r ∧ r < 64 then some (l / 2 ^ r.toNat) else none
  | .matMul => none

def exactDim : Expr → Option ℤ
  | .number value _ => (decimal value).map fun n : ℕ => (n : ℤ)
  | .binaryOp lhs op rhs _ => do exactOp op (← exactDim lhs) (← exactDim rhs)
  | .unaryOp .neg e => do return -(← exactDim e)
  | _ => none

def OpFits (op : BinaryOp) (l r : ℤ) : Prop :=
  match op with
  | .add => InI128 (l + r)
  | .sub => InI128 (l - r)
  | .mul => InI128 (l * r)
  | .div | .rem => InI128 (l.tdiv r)
  | .shl => InI128 (l * 2 ^ r.toNat)
  | _ => True

def DimFits : Expr → Prop
  | .number value _ => ∀ n, decimal value = some n → n < 2 ^ 64
  | .binaryOp lhs op rhs _ => DimFits lhs ∧ DimFits rhs ∧ ∀ l r, exactDim lhs = some l → exactDim rhs = some r → OpFits op l r
  | .unaryOp .neg e => DimFits e ∧ ∀ v, exactDim e = some v → InI128 (-v)
  | _ => True

theorem checkedI128_eq {v : ℤ} (h : InI128 v) : checkedI128 v = some v := if_pos h

theorem shiftCount_eq (r : ℤ) : shiftCount r = if 0 ≤ r ∧ r < 64 then some r.toNat else none := by
  unfold shiftCount
  split_ifs <;> first | rfl | omega

theorem foldOp_eq {op : BinaryOp} {l r : ℤ} (h : OpFits op l r) : foldOp op l r = (exactOp op l r).map some := by
  cases op <;> simp only [OpFits] at h <;> simp only [foldOp, exactOp, map_some, map_none]
  case add | sub | mul => rw [checkedI128_eq h]
  case div | rem =>
    by_cases hr : r = 0
    · rw [if_pos hr, if_pos hr, map_none]
    · rw [if_neg hr, if_neg hr, checkedI128_eq h]
      rfl
  case shl | shr =>
    rw [shiftCount_eq]
    by_cases hr : 0 ≤ r ∧ r < 64
    · simp [hr, toI128_eq, h]
    · rw [if_neg hr, if_neg hr, map_none, map_none]

theorem checkedU64_natCast {n : ℕ} (h : n < 2 ^ 64) : checkedU64 n = some (n : ℤ) := by
  rw [checkedU64, if_pos]
  omega

theorem constDim_eq (e : Expr) (h : DimFits e) : constDim e = match exactDim e with
      | some v => .ok v
      | none => .error .notConstant := by
  induction e using exactDim.induct with
  | case1 value ty =>
    rw [constDim, exactDim]
    cases hvalue : decimal value with
    | none => rfl
    | some n =>
      rw [bind_some, map_some, checkedU64_natCast (h n hvalue)]
  | case2 lhs op rhs ty ihl ihr =>
    obtain ⟨hl, hr, hop⟩ := h
    rw [constDim, exactDim, ihl hl]
    cases hlhs : exactDim lhs with
    | none => rfl
    | some l =>
      simp only [ihr hr]
      cases hrhs : exactDim rhs with
      | none => rfl
      | some r =>
        have hop := foldOp_eq (hop l r hlhs hrhs)
        simp only [bind, Except.bind, Option.bind, hop]
        cases exactOp op l r <;> rfl
  | case3 e ih =>
    obtain ⟨he, hneg⟩ := h
    rw [constDim, exactDim, ih he]
    cases hv : exactDim e with
    | none => rfl
    | some v =>
      simp only [bind, Except.bind, Option.bind, toI128_eq (hneg v hv)]
      rfl
  | case4 e h₁ h₂ h₃ =>
    rw [constDim, exactDim] <;> assumption

section
variable {elem : ElementType} {es : List Expr}

def extents (es : List Expr) : List ℤ := es.filterMap exactDim

def Defined (es : List Expr) : Prop := ∀ e ∈ es, ∃ v, exactDim e = some v

theorem foldlM_foldDim (hfits : ∀ e ∈ es, DimFits e) (acc : List ℤ) :
    (Defined es ∧ (es.map Dim.static).foldlM foldDim (acc, false) = some (acc ++ extents es, false)) ∨
      (¬ Defined es ∧ (es.map Dim.static).foldlM foldDim (acc, false) = none) := by
  induction es generalizing acc with
  | nil =>
    left
    constructor
    · intro e he
      cases he
    · simp [extents]
  | cons e es ih =>
    have hdim := constDim_eq e (hfits e mem_cons_self)
    rw [map_cons, foldlM_cons]
    cases he : exactDim e with
    | none =>
      rw [he] at hdim
      refine .inr ⟨fun h => ?_, by simp only [foldDim, Dim.asStatic, hdim]; rfl⟩
      obtain ⟨v, hv⟩ := h e mem_cons_self
      rw [he] at hv
      cases hv
    | some v =>
      rw [he] at hdim
      have hstep : foldDim (acc, false) (.static e) = some (acc ++ [v], false) := by
        simp only [foldDim, Dim.asStatic, hdim]
      have hdefined : Defined (e :: es) ↔ Defined es := by
        simp [Defined, he]
      have hextents : acc ++ [v] ++ extents es = acc ++ extents (e :: es) := by
        simp [extents, he]
      rw [hstep, hdefined, ← hextents]
      exact ih (fun e' he' => hfits e' (mem_cons_of_mem _ he')) (acc ++ [v])

theorem foldl_mulExtent_none (vs : List ℤ) : vs.foldl mulExtent none = none := by
  induction vs with
  | nil => rfl
  | cons v vs ih => exact ih

def nonzero (vs : List ℤ) : List ℤ := vs.filter (· ≠ 0)

variable {vs : List ℤ} {b : ℤ}

theorem le_mul_prod (hb : 0 ≤ b) (h : ∀ v ∈ vs, 0 < v) : b ≤ b * vs.prod := by
  calc b = b * 1 := (Int.mul_one b).symm
    _ ≤ b * vs.prod := Int.mul_le_mul_of_nonneg_left (prod_pos h) hb

theorem pos_of_mem_nonzero (h : ∀ v ∈ vs, 0 ≤ v) : ∀ v ∈ nonzero vs, 0 < v := by
  intro v hv
  obtain ⟨hmem, hne⟩ := List.mem_filter.mp hv
  have hle := h v hmem
  have hne : v ≠ 0 := by simpa using hne
  omega

def Steady (b : ℤ) (vs : List ℤ) : Prop :=
  0 < b ∧ 0 ∉ vs ∨ (∀ v ∈ vs, v < 2 ^ 64) ∧ b * (nonzero vs).prod < 2 ^ 64

theorem Steady.tail {b v : ℤ} (h : Steady b (v :: vs)) (hv : 0 ≤ v) : Steady (b * v) vs := by
  rcases h with ⟨hb, hmem⟩ | ⟨hlt, hprod⟩
  · refine .inl ⟨Int.mul_pos hb ?_, fun h => hmem (mem_cons_of_mem _ h)⟩
    have hne : v ≠ 0 := fun h => hmem (h ▸ mem_cons_self)
    omega
  · refine .inr ⟨fun w hw => hlt w (mem_cons_of_mem _ hw), ?_⟩
    by_cases hzero : v = 0
    · subst hzero
      rw [Int.mul_zero, Int.zero_mul]
      decide
    · rw [nonzero, filter_cons_of_pos (by simpa using hzero), prod_cons] at hprod
      rwa [Int.mul_assoc]

theorem foldl_mulExtent (hvs : ∀ v ∈ vs, 0 ≤ v) (hb : 0 ≤ b) (hlt : b < 2 ^ 64)
    (h : Steady b vs) : vs.foldl mulExtent (some b) = checkedU64 (b * vs.prod) := by
  induction vs generalizing b with
  | nil =>
    rw [prod_nil, Int.mul_one, checkedU64, if_pos ⟨hb, hlt⟩]
    rfl
  | cons v vs ih =>
    have hv := hvs v mem_cons_self
    have hrest : ∀ w ∈ vs, 0 ≤ w := fun w hw => hvs w (mem_cons_of_mem _ hw)
    have hbv : 0 ≤ b * v := Int.mul_nonneg hb hv
    rw [foldl_cons, prod_cons, ← Int.mul_assoc]
    by_cases hfits : v < 2 ^ 64 ∧ b * v < 2 ^ 64
    · have hstep : mulExtent (some b) v = some (b * v) := by
        rw [mulExtent, bind_some, checkedU64, if_pos ⟨hv, hfits.1⟩, bind_some, checkedU64, if_pos ⟨hbv, hfits.2⟩]
      rw [hstep]
      exact ih hrest hbv hfits.2 (h.tail hv)
    · have hstep : mulExtent (some b) v = none := by
        rw [mulExtent, bind_some, checkedU64]
        by_cases hv' : v < 2 ^ 64
        · rw [if_pos ⟨hv, hv'⟩, bind_some, checkedU64, if_neg fun h => hfits ⟨hv', h.2⟩]
        · rw [if_neg fun h => hv' h.2, bind_none]
      rw [hstep, foldl_mulExtent_none, checkedU64, if_neg]
      rintro ⟨-, hprod⟩
      apply hfits
      -- the factors that are left are at least one
      rcases h with ⟨hbpos, hmem⟩ | ⟨hlts, hnonzero⟩
      · have hpos : ∀ w ∈ vs, 0 < w := by
          intro w hw
          have hle := hrest w hw
          have hne : w ≠ 0 := fun h => hmem (h ▸ mem_cons_of_mem _ hw)
          omega
        have hle := le_mul_prod hbv hpos
        have hone : v ≤ b * v := by
          calc v = 1 * v := (Int.one_mul v).symm
            _ ≤ b * v := Int.mul_le_mul_of_nonneg_right hbpos hv
        omega
      · refine ⟨hlts v mem_cons_self, ?_⟩
        by_cases hzero : v = 0
        · subst hzero
          rw [Int.mul_zero]
          decide
        · rw [nonzero, filter_cons_of_pos (by simpa using hzero), prod_cons, ← Int.mul_assoc] at hnonzero
          exact (le_mul_prod hbv (pos_of_mem_nonzero hrest)).trans_lt hnonzero

def Nonnegative (es : List Expr) : Prop := ∀ e ∈ es, ∃ v, exactDim e = some v ∧ 0 ≤ v

theorem nonnegative_iff : Nonnegative es ↔ Defined es ∧ ∀ v ∈ extents es, 0 ≤ v := by
  simp only [Nonnegative, Defined, extents, mem_filterMap]
  constructor
  · intro h
    constructor
    · intro e he
      obtain ⟨v, hv, -⟩ := h e he
      exact ⟨v, hv⟩
    · rintro v ⟨e, he, hev⟩
      obtain ⟨w, hw, hle⟩ := h e he
      rw [hev] at hw
      cases hw
      exact hle
  · rintro ⟨hdefined, hle⟩ e he
    obtain ⟨v, hv⟩ := hdefined e he
    exact ⟨v, hv, hle v ⟨e, he, hv⟩⟩

theorem Steady.of_nonzero (hb : 0 < b) (hvs : ∀ v ∈ vs, 0 ≤ v)
    (h : 0 ∈ vs → b * (nonzero vs).prod < 2 ^ 64) : Steady b vs := by
  by_cases hzero : 0 ∈ vs
  · refine .inr ⟨?_, h hzero⟩
    intro v hv
    by_cases hne : v = 0
    · omega
    have hmem : v ∈ nonzero vs := List.mem_filter.mpr ⟨hv, by simpa using hne⟩
    have hpos := prod_pos (pos_of_mem_nonzero hvs)
    calc v ≤ (nonzero vs).prod := Int.le_of_dvd hpos (dvd_prod hmem)
      _ = 1 * (nonzero vs).prod := (Int.one_mul _).symm
      _ ≤ b * (nonzero vs).prod := Int.mul_le_mul_of_nonneg_right hb (by omega)
      _ < 2 ^ 64 := h hzero
  · exact .inl ⟨hb, hzero⟩

theorem elementBytes_pos {b : ℕ} (h : elementBytes elem = some b) : 0 < b ∧ b ≤ 16 := by
  cases elem <;> simp [elementBytes, elementBits] at h <;> omega

open Classical in
noncomputable def exactSize (b : ℤ) (es : List Expr) : StaticSize :=
  if ¬ Defined es then .notConstant
  else if Nonnegative es then
    if b * (extents es).prod < 2 ^ 63 then .bytes (b * (extents es).prod) else .overflows
  else .negativeExtent

theorem exactSize_perm {es' : List Expr} (h : es.Perm es') : exactSize b es = exactSize b es' := by
  have hdefined : Defined es ↔ Defined es' := forall_congr' fun e => imp_congr_left h.mem_iff
  have hnonneg : Nonnegative es ↔ Nonnegative es' := forall_congr' fun e => imp_congr_left h.mem_iff
  have hprod : (extents es).prod = (extents es').prod := (h.filterMap exactDim).prod_eq
  rw [exactSize, exactSize, propext hdefined, propext hnonneg, hprod]

def ZeroFits (b : ℤ) (es : List Expr) : Prop :=
  Nonnegative es → 0 ∈ extents es → b * (nonzero (extents es)).prod < 2 ^ 64

theorem ZeroFits.perm {es' : List Expr} (h : es.Perm es') (hzero : ZeroFits b es) : ZeroFits b es' := by
  intro hnonneg hmem
  have hextents := h.filterMap exactDim
  have hprod : (nonzero (extents es)).prod = (nonzero (extents es')).prod := (hextents.filter _).prod_eq
  rw [← hprod]
  exact hzero (fun e he => hnonneg e (h.mem_iff.mp he)) (hextents.mem_iff.mpr hmem)

theorem staticTensorSize_eq {b : ℕ} (hb : elementBytes elem = some b) (hne : es ≠ []) (hfits : ∀ e ∈ es, DimFits e)
    (hzero : ZeroFits b es) : staticTensorSize elem (es.map Dim.static) = exactSize b es := by
  obtain ⟨hpos, hle⟩ := elementBytes_pos hb
  have hempty : (es.map Dim.static).isEmpty = false := by
    simpa using hne
  rw [staticTensorSize, hempty, exactSize]
  rcases foldlM_foldDim hfits [] with ⟨hdefined, hfold⟩ | ⟨hdefined, hfold⟩
  · rw [hfold, if_neg (not_not.mpr hdefined)]
    simp only [nil_append, Bool.false_eq_true, if_false, hb]
    by_cases hnonneg : Nonnegative es
    · have hvs := (nonnegative_iff.mp hnonneg).2
      have hany : (extents es).any (· < 0) = false := by
        simpa using hvs
      rw [hany, if_pos hnonneg, foldl_mulExtent hvs (by omega) (by omega)
        (Steady.of_nonzero (by omega) hvs (hzero hnonneg)), checkedU64]
      have hprod : 0 ≤ (b : ℤ) * (extents es).prod := by
        apply Int.mul_nonneg (by omega)
        exact prod_nonneg hvs
      simp only [Bool.false_eq_true, if_false, hprod, true_and]
      by_cases hlt : (b : ℤ) * (extents es).prod < 2 ^ 63
      · rw [if_pos (by omega), if_pos hlt]
        exact if_pos (by omega)
      rw [if_neg hlt]
      split
      · rename_i heq
        split_ifs at heq
        cases heq
        exact if_neg (by omega)
      · rfl
    · have hany : (extents es).any (· < 0) = true := by
        by_contra hany
        apply hnonneg
        apply nonnegative_iff.mpr
        exact ⟨hdefined, by simpa using hany⟩
      rw [hany, if_neg hnonneg]
      rfl
  · rw [hfold, if_pos hdefined]
    rfl

end

/-- On extents that fit, the size is exact and does not depend on the order of the dimensions. -/
theorem static_tensor_size_exact {elem : ElementType} {b : ℕ} (hb : elementBytes elem = some b) {es : List Expr}
    (hne : es ≠ []) (hfits : ∀ e ∈ es, DimFits e) (hzero : ZeroFits b es) :
    (∀ n, staticTensorSize elem (es.map Dim.static) = .bytes n ↔
      Nonnegative es ∧ n = b * (extents es).prod ∧ n ≤ 2 ^ 63 - 1) ∧
      (staticTensorSize elem (es.map Dim.static) = .overflows → Nonnegative es ∧ 2 ^ 63 - 1 < b * (extents es).prod) ∧
      ∀ es', es.Perm es' →
        staticTensorSize elem (es'.map Dim.static) = staticTensorSize elem (es.map Dim.static) := by
  classical
  rw [staticTensorSize_eq hb hne hfits hzero]
  refine ⟨?_, ?_, ?_⟩
  · intro n
    by_cases hnonneg : Nonnegative es
    · have hdefined := (nonnegative_iff.mp hnonneg).1
      rw [exactSize, if_neg (not_not.mpr hdefined), if_pos hnonneg]
      by_cases hlt : (b : ℤ) * (extents es).prod < 2 ^ 63
      · rw [if_pos hlt, StaticSize.bytes.injEq]
        constructor
        · rintro rfl
          exact ⟨hnonneg, rfl, by omega⟩
        · rintro ⟨-, rfl, -⟩
          rfl
      · rw [if_neg hlt]
        refine iff_of_false (fun h => nomatch h) ?_
        rintro ⟨-, rfl, hle⟩
        omega
    · rw [exactSize, if_neg hnonneg]
      refine iff_of_false ?_ fun h => hnonneg h.1
      split_ifs <;> exact fun h => nomatch h
  · intro h
    rw [exactSize] at h
    split_ifs at h with hdefined hnonneg hlt
    exact ⟨hnonneg, by omega⟩
  · intro es' hperm
    rw [exactSize_perm hperm]
    apply staticTensorSize_eq hb
    · rintro rfl
      exact hne hperm.eq_nil
    · exact fun e he => hfits e (hperm.mem_iff.mpr he)
    · exact hzero.perm hperm

def numeral (value : String) : Expr := .number value none

theorem dimFits_numeral {value : String} {n : ℕ} (hvalue : decimal value = some n) (hn : n < 2 ^ 64) :
    DimFits (numeral value) := by
  intro m hm
  rw [hvalue] at hm
  cases hm
  exact hn

theorem static_tensor_size_two_by_three :
    staticTensorSize .f32 ([numeral "2", numeral "3"].map Dim.static) = .bytes 24 := by
  have hnonneg : Nonnegative [numeral "2", numeral "3"] := by
    intro e he
    simp only [mem_cons, not_mem_nil, or_false] at he
    rcases he with rfl | rfl
    · exact ⟨2, by decide, by decide⟩
    · exact ⟨3, by decide, by decide⟩
  apply ((static_tensor_size_exact (b := 4) rfl (cons_ne_nil _ _) ?_ ?_).1 24).mpr
  · exact ⟨hnonneg, by decide, by decide⟩
  · intro e he
    simp only [mem_cons, not_mem_nil, or_false] at he
    rcases he with rfl | rfl
    · exact dimFits_numeral (n := 2) (by decide) (by decide)
    · exact dimFits_numeral (n := 3) (by decide) (by decide)
  · intro _ hmem
    exact absurd hmem (by decide)

def shiftedOut : Expr :=
  .binaryOp (.binaryOp (.binaryOp (numeral "1") .shl (numeral "63") none) .shl (numeral "63") none) .shl (numeral "2") none

def squaredTimesZero : Expr :=
  .binaryOp (.binaryOp (numeral "18446744073709551615") .mul (numeral "18446744073709551615") none) .mul (numeral "0") none

/-- A shape without dimensions has no size, a product that leaves the 128 bits on the way overflows even where the extent
is zero, a shift loses the bits above them, and a zero extent counts only where it comes first. -/
theorem static_tensor_size_inexact :
    staticTensorSize .i8 [] = .notConstant ∧
      (exactDim squaredTimesZero = some 0 ∧ staticTensorSize .i8 [.static squaredTimesZero] = .overflows) ∧
      (exactDim shiftedOut = some (2 ^ 128) ∧ staticTensorSize .i8 [.static shiftedOut] = .bytes 0) ∧
      staticTensorSize .i8 (["1099511627776", "1099511627776", "0"].map fun n => .static (numeral n)) = .overflows ∧
      staticTensorSize .i8 (["0", "1099511627776", "1099511627776"].map fun n => .static (numeral n)) = .bytes 0 := by
  refine ⟨rfl, ⟨by decide, by decide⟩, ⟨by decide, by decide⟩, by decide, by decide⟩

end Vx.Layout
