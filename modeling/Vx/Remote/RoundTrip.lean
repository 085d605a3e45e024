import Vx.Remote.Wire

namespace Vx.Remote

open List Option Int

structure Writer where
  written : Bytes
  capacity : ℕ
  overflow : Bool
deriving DecidableEq, Repr

namespace Writer

def init (capacity : ℕ) : Writer := ⟨[], capacity, false⟩

def put (w : Writer) (src : Bytes) : Writer :=
  if w.overflow ∨ w.capacity < (w.written.length + src.length) % addressSpace then { w with overflow := true }
  else { w with written := w.written ++ src }

def putU32 (w : Writer) (v : ℕ) : Writer := w.put (wirePutU32 v)

def putU64 (w : Writer) (v : ℕ) : Writer := (w.putU32 (v % 2 ^ 32)).putU32 (v / 2 ^ 32)

def putI32 (w : Writer) (v : ℤ) : Writer := w.putU32 (v % 2 ^ 32).toNat

def putI64 (w : Writer) (v : ℤ) : Writer := w.putU64 (v % 2 ^ 64).toNat

def putExtents (w : Writer) (a : TaggedArg) : Writer :=
  a.strides.foldl putI64 (a.sizes.foldl putI64 (w.putI32 a.rank))

def putArg (w : Writer) (a : TaggedArg) : Writer :=
  let w := w.putU32 a.tag
  if abiIsSlot a.tag then
    let w := w.putU64 a.handle
    if a.handle ≠ 0 then w.putExtents a else w
  else if abiKind a.tag ≠ abiKindMemref then
    let n := (Dtype.ofCode (abiKind a.tag)).bytes
    w.put (a.scalar.take (if n = 0 then 8 else n))
  else (w.putU64 a.handle).putExtents a

def putDispatch (w : Writer) (payload : Bytes) (args : List TaggedArg) : Writer :=
  args.foldl putArg (((w.putU64 payload.length).put payload).putI64 args.length)

end Writer

structure WireResult where
  handle : ℕ
  rank : ℕ
  sizes : List ℤ
deriving DecidableEq, Repr

def Writer.putResult (w : Writer) (result : WireResult) : Writer :=
  result.sizes.foldl Writer.putI64 ((w.putU64 result.handle).putI32 result.rank)

def Writer.putResults (w : Writer) (status : ℤ) (results : List WireResult) : Writer :=
  results.foldl Writer.putResult ((w.putI32 status).putI64 results.length)

def wireGetResultsHeader (r : Bytes) : Option ((ℤ × ℕ) × Bytes) := do
  let (status, r) ← wireGetI32 r
  let (count, r) ← wireGetI64 r
  if count < 0 ∨ count.toNat * 12 % addressSpace > r.length then none
  else return ((status, count.toNat), r)

def wireGetResult (r : Bytes) : Option (WireResult × Bytes) := do
  let (handle, r) ← wireGetU64 r
  let (rank, r) ← wireGetI32 r
  if rank < 0 ∨ rank > abiMaxRank then none
  else
    let (sizes, r) ← wireGetI64s rank.toNat r
    return (⟨handle, rank.toNat, sizes⟩, r)

def wireGetResults : ℕ → Bytes → Option (List WireResult × Bytes)
  | 0, r => some ([], r)
  | n + 1, r => do
    let (result, r) ← wireGetResult r
    let (results, r) ← wireGetResults n r
    return (result :: results, r)

def wirePutI32 (v : ℤ) : Bytes := wirePutU32 (v % 2 ^ 32).toNat

def wirePutResult (result : WireResult) : Bytes :=
  wirePutU64 result.handle ++ wirePutI32 result.rank ++ result.sizes.flatMap wirePutI64

def wirePutResults (status : ℤ) (results : List WireResult) : Bytes :=
  wirePutI32 status ++ wirePutI64 results.length ++ results.flatMap wirePutResult

structure Adds (w : Writer) (bytes : Bytes) (w' : Writer) : Prop where
  capacity : w'.capacity = w.capacity
  bounded : w.written.length ≤ w.capacity → w'.written.length ≤ w'.capacity
  written : w.written.length ≤ w.capacity → w'.overflow = false →
    w.overflow = false ∧ w'.written = w.written ++ bytes

theorem Adds.refl (w : Writer) : Adds w [] w := ⟨rfl, id, fun _ h => ⟨h, (append_nil _).symm⟩⟩

theorem Adds.trans {w w' w'' : Writer} {bytes bytes' : Bytes} (h : Adds w bytes w') (h' : Adds w' bytes' w'') :
    Adds w (bytes ++ bytes') w'' where
  capacity := h'.capacity.trans h.capacity
  bounded hw := h'.bounded (h.bounded hw)
  written hw ho := by
    obtain ⟨ho', hwritten'⟩ := h'.written (h.bounded hw) ho
    obtain ⟨ho'', hwritten⟩ := h.written hw ho'
    exact ⟨ho'', by rw [hwritten', hwritten, append_assoc]⟩

theorem adds_put (w : Writer) (src : Bytes) (h : w.capacity + src.length < addressSpace) : Adds w src (w.put src) := by
  unfold Writer.put
  by_cases hfull : w.overflow ∨ w.capacity < (w.written.length + src.length) % addressSpace
  · rw [if_pos hfull]
    exact ⟨rfl, id, fun _ ho => by cases ho⟩
  rw [if_neg hfull]
  refine ⟨rfl, ?_, fun _ ho => ⟨ho, rfl⟩⟩
  intro hw
  have hmod : (w.written.length + src.length) % addressSpace = w.written.length + src.length :=
    Nat.mod_eq_of_lt (by omega)
  dsimp only
  rw [length_append]
  omega

theorem Adds.foldl {α : Type} {put : Writer → α → Writer} {bytes : α → Bytes} {limit : ℕ}
    (hput : ∀ w x, w.capacity + limit < addressSpace → Adds w (bytes x) (put w x)) (l : List α) (w : Writer)
    (hw : w.capacity + limit < addressSpace) : Adds w (l.flatMap bytes) (l.foldl put w) := by
  induction l generalizing w with
  | nil => exact .refl w
  | cons x l ih =>
    have hfirst := hput w x hw
    exact hfirst.trans (ih (put w x) (by rw [hfirst.capacity]; exact hw))

section
variable (w : Writer) (hw : w.capacity + 8 < addressSpace)
include hw

theorem adds_putU32 (v : ℕ) : Adds w (wirePutU32 v) (w.putU32 v) :=
  adds_put w _ (by simp only [wirePutU32, length_map, length_cons, length_nil]; omega)

theorem adds_putU64 (v : ℕ) : Adds w (wirePutU64 v) (w.putU64 v) := by
  have hlow := adds_putU32 w hw (v % 2 ^ 32)
  exact hlow.trans (adds_putU32 _ (by rw [hlow.capacity]; exact hw) (v / 2 ^ 32))

theorem adds_putI32 (v : ℤ) : Adds w (wirePutI32 v) (w.putI32 v) := adds_putU32 w hw _

theorem adds_putI64 (v : ℤ) : Adds w (wirePutI64 v) (w.putI64 v) := adds_putU64 w hw _

theorem adds_putI64s (vs : List ℤ) : Adds w (vs.flatMap wirePutI64) (vs.foldl Writer.putI64 w) :=
  Adds.foldl (fun w v hw => adds_putI64 w hw v) vs w hw

theorem adds_putExtents (a : TaggedArg) :
    Adds w (wirePutI32 a.rank ++ a.sizes.flatMap wirePutI64 ++ a.strides.flatMap wirePutI64) (w.putExtents a) := by
  have hrank := adds_putI32 w hw a.rank
  have hsizes := hrank.trans (adds_putI64s _ (by rw [hrank.capacity]; exact hw) a.sizes)
  exact hsizes.trans (adds_putI64s _ (by rw [hsizes.capacity]; exact hw) a.strides)

theorem adds_putResult (result : WireResult) : Adds w (wirePutResult result) (w.putResult result) := by
  have hhandle := adds_putU64 w hw result.handle
  have hrank := hhandle.trans (adds_putI32 _ (by rw [hhandle.capacity]; exact hw) result.rank)
  exact hrank.trans (adds_putI64s _ (by rw [hrank.capacity]; exact hw) result.sizes)

theorem adds_putResults (status : ℤ) (results : List WireResult) :
    Adds w (wirePutResults status results) (w.putResults status results) := by
  have hstatus := adds_putI32 w hw status
  have hcount := hstatus.trans (adds_putI64 _ (by rw [hstatus.capacity]; exact hw) results.length)
  exact hcount.trans (Adds.foldl (fun w r hw => adds_putResult w hw r) results _ (by rw [hcount.capacity]; exact hw))

omit hw in
theorem wirePutI32_natCast (n : ℕ) : wirePutI32 n = wirePutU32 n := by
  have hnat : ((n : ℤ) % 2 ^ 32).toNat = n % 2 ^ 32 := by omega
  unfold wirePutI32 wirePutU32
  apply map_congr_left
  intro shift hshift
  apply UInt8.toNat_inj.1
  rw [UInt8.toNat_ofNat', UInt8.toNat_ofNat']
  simp only [mem_cons, not_mem_nil, or_false] at hshift
  rcases hshift with rfl | rfl | rfl | rfl <;> omega

theorem adds_putArg (a : TaggedArg) : Adds w (wirePutArg a) (w.putArg a) := by
  have htag := adds_putU32 w hw a.tag
  have hcap : (w.putU32 a.tag).capacity + 8 < addressSpace := by
    rw [htag.capacity]
    exact hw
  have hhandle := adds_putU64 _ hcap a.handle
  have hextents := adds_putExtents _ (by rw [hhandle.capacity]; exact hcap) a
  rw [wirePutI32_natCast] at hextents
  unfold Writer.putArg wirePutArg
  dsimp only
  apply htag.trans
  by_cases hslot : abiIsSlot a.tag = true
  · rw [if_pos hslot, if_pos hslot]
    by_cases hzero : a.handle = 0
    · rw [if_neg (not_not.2 hzero), if_neg (not_not.2 hzero), append_nil]
      exact hhandle
    · rw [if_pos hzero, if_pos hzero]
      exact hhandle.trans hextents
  · rw [if_neg hslot, if_neg hslot]
    by_cases hkind : abiKind a.tag ≠ abiKindMemref
    · rw [if_pos hkind, if_pos hkind]
      apply adds_put
      have hbytes : (if (Dtype.ofCode (abiKind a.tag)).bytes = 0 then 8
          else (Dtype.ofCode (abiKind a.tag)).bytes) ≤ 8 := by
        cases Dtype.ofCode (abiKind a.tag) <;> decide
      have hlen := length_take_le (if (Dtype.ofCode (abiKind a.tag)).bytes = 0 then 8
        else (Dtype.ofCode (abiKind a.tag)).bytes) a.scalar
      omega
    · rw [if_neg hkind, if_neg hkind]
      exact hhandle.trans hextents

end

theorem adds_putDispatch (w : Writer) (payload : Bytes) (args : List TaggedArg)
    (hw : w.capacity + payload.length + 8 < addressSpace) :
    Adds w (wirePutDispatch payload args) (w.putDispatch payload args) := by
  have hlength := adds_putU64 w (by omega) payload.length
  have hpayload := hlength.trans (adds_put _ payload (by rw [hlength.capacity]; omega))
  have hcount := hpayload.trans (adds_putI64 _ (by rw [hpayload.capacity]; omega) args.length)
  exact hcount.trans (Adds.foldl (fun w a hw => adds_putArg w hw a) args _ (by rw [hcount.capacity]; omega))

section
variable {r r₁ r₂ r₃ : Bytes}

/- One rule for each way a reader succeeds, over any bytes. -/

variable {tag : ℕ} (htag : wireGetU32 r = some (tag, r₁))
include htag

theorem wireGetArg_empty_slot (hslot : abiIsSlot tag = true)
    (hhandle : wireGetU64 r₁ = some (0, r₂)) : wireGetArg r = some (⟨tag, [], 0, 0, [], []⟩, r₂) := by
  simp [wireGetArg, htag, hslot, hhandle]

variable {handle : ℕ} {sizes : List ℤ} {strides : List ℤ}

theorem wireGetArg_slot {rank : ℕ}
    (hslot : abiIsSlot tag = true) (hhandle : wireGetU64 r₁ = some (handle, r₂)) (hne : handle ≠ 0)
    (hextents : wireGetExtents r₂ = some ((rank, sizes, strides), r₃)) :
    wireGetArg r = some (⟨tag, [], handle, rank, sizes, strides⟩, r₃) := by
  simp [wireGetArg, htag, hslot, hhandle, hne, hextents]

theorem wireGetArg_scalar {scalar : Bytes} (hslot : abiIsSlot tag = false) (hkind : abiKind tag ≠ abiKindMemref)
    (hwidth : (Dtype.ofCode (abiKind tag)).bytes ≠ 0)
    (hscalar : wireGet (Dtype.ofCode (abiKind tag)).bytes r₁ = some (scalar, r₂)) :
    wireGetArg r = some (⟨tag, scalar, 0, 0, [], []⟩, r₂) := by
  simp [wireGetArg, htag, hslot, hkind, hwidth, hscalar]

theorem wireGetArg_memref (hslot : abiIsSlot tag = false) (hkind : abiKind tag = abiKindMemref)
    (hhandle : wireGetU64 r₁ = some (handle, r₂))
    (hextents : wireGetExtents r₂ = some ((abiRank tag, sizes, strides), r₃)) :
    wireGetArg r = some (⟨tag, [], handle, abiRank tag, sizes, strides⟩, r₃) := by
  simp [wireGetArg, htag, hslot, hkind, hhandle, hextents]

omit htag

theorem wireGetResult_some {rank : ℕ} (hhandle : wireGetU64 r = some (handle, r₁))
    (hrank : wireGetI32 r₁ = some ((rank : ℤ), r₂)) (hle : rank ≤ abiMaxRank)
    (hsizes : wireGetI64s rank r₂ = some (sizes, r₃)) : wireGetResult r = some (⟨handle, rank, sizes⟩, r₃) := by
  have hok : ¬ ((rank : ℤ) < 0 ∨ (rank : ℤ) > abiMaxRank) := by omega
  simp only [wireGetResult, hhandle, hrank, bind_eq_bind, bind_some, if_neg hok, toNat_natCast, hsizes, Option.pure_def]

theorem wireGetDispatch_some {payload : Bytes} {n : ℕ} (hlength : wireGetU64 r = some (payload.length, r₁))
    (hpayload : wireGet payload.length r₁ = some (payload, r₂)) (hcount : wireGetI64 r₂ = some ((n : ℤ), r₃))
    (hfit : n * 4 ≤ r₃.length) : wireGetDispatch r = some ((payload, n), r₃) := by
  have hok : ¬ ((n : ℤ) < 0 ∨ n * 4 % addressSpace > r₃.length) := by
    have hmod := Nat.mod_le (n * 4) addressSpace
    omega
  simp only [wireGetDispatch, hlength, hpayload, hcount, bind_eq_bind, bind_some, toNat_natCast,
    if_neg hok, Option.pure_def]

theorem wireGetResultsHeader_some {status : ℤ} {n : ℕ} (hstatus : wireGetI32 r = some (status, r₁))
    (hcount : wireGetI64 r₁ = some ((n : ℤ), r₂)) (hfit : n * 12 ≤ r₂.length) :
    wireGetResultsHeader r = some ((status, n), r₂) := by
  have hok : ¬ ((n : ℤ) < 0 ∨ n * 12 % addressSpace > r₂.length) := by
    have hmod := Nat.mod_le (n * 12) addressSpace
    omega
  simp only [wireGetResultsHeader, hstatus, hcount, bind_eq_bind, bind_some, toNat_natCast, if_neg hok, Option.pure_def]

end

section

theorem wireGet_append (b r : Bytes) : wireGet b.length (b ++ r) = some (b, r) := by
  rw [wireGet, if_pos (by rw [length_append]; omega), take_left, drop_left]

variable {v : ℕ}

theorem littleEndian_wirePutU32 (hv : v < 2 ^ 32) : littleEndian (wirePutU32 v) = v := by
  simp only [wirePutU32, map_cons, map_nil, littleEndian, UInt8.toNat_ofNat']
  omega

theorem wireGetU32_put (hv : v < 2 ^ 32) (r : Bytes) : wireGetU32 (wirePutU32 v ++ r) = some (v, r) := by
  have hget : wireGet 4 (wirePutU32 v ++ r) = some (wirePutU32 v, r) := wireGet_append (wirePutU32 v) r
  rw [wireGetU32, hget, map_some]
  dsimp only
  rw [littleEndian_wirePutU32 hv]

theorem wireGetU64_put (hv : v < 2 ^ 64) (r : Bytes) : wireGetU64 (wirePutU64 v ++ r) = some (v, r) := by
  have hlow : v % 2 ^ 32 < 2 ^ 32 := by omega
  have hhigh : v / 2 ^ 32 < 2 ^ 32 := by omega
  simp only [wireGetU64, wirePutU64, append_assoc, wireGetU32_put hlow, wireGetU32_put hhigh,
    bind_eq_bind, bind_some, Option.pure_def, Option.some.injEq, Prod.mk.injEq, and_true]
  omega

theorem wireGetI32_put {v : ℤ} (hlow : -2 ^ 31 ≤ v) (hhigh : v < 2 ^ 31) (r : Bytes) :
    wireGetI32 (wirePutI32 v ++ r) = some (v, r) := by
  have hword : (((v % 2 ^ 32).toNat : ℕ) : ℤ).bmod (2 ^ 32) = v := by
    rw [toNat_of_nonneg (by omega), bmod_def]
    omega
  rw [wireGetI32, wirePutI32, wireGetU32_put (by omega), map_some]
  dsimp only
  rw [hword]

def IsI64 (v : ℤ) : Prop := -2 ^ 63 ≤ v ∧ v < 2 ^ 63

theorem wireGetI64_put {v : ℤ} (hv : IsI64 v) (r : Bytes) : wireGetI64 (wirePutI64 v ++ r) = some (v, r) := by
  obtain ⟨hlow, hhigh⟩ := hv
  have hword : (((v % 2 ^ 64).toNat : ℕ) : ℤ).bmod (2 ^ 64) = v := by
    rw [toNat_of_nonneg (by omega), bmod_def]
    omega
  rw [wireGetI64, wirePutI64, wireGetU64_put (by omega), map_some]
  dsimp only
  rw [hword]

theorem wireGetI64s_put {vs : List ℤ} (hvs : ∀ v ∈ vs, IsI64 v) (r : Bytes) :
    wireGetI64s vs.length (vs.flatMap wirePutI64 ++ r) = some (vs, r) := by
  induction vs with
  | nil => rfl
  | cons v vs ih =>
    have hv := hvs v mem_cons_self
    have hrest := ih fun x hx => hvs x (mem_cons_of_mem _ hx)
    simp [wireGetI64s, wireGetI64_put hv, hrest]

structure TaggedArg.WellFormed (a : TaggedArg) : Prop extends a.Formed where
  tag_lt : a.tag < 2 ^ 32
  handle_lt : a.handle < 2 ^ 64
  sizes_i64 : ∀ v ∈ a.sizes, IsI64 v
  strides_i64 : ∀ v ∈ a.strides, IsI64 v
  slot : abiIsSlot a.tag = true → a.scalar = [] ∧ (a.handle = 0 → a.rank = 0)
  scalar_kind : abiIsSlot a.tag = false → abiKind a.tag ≠ abiKindMemref →
    a.scalar.length = (Dtype.ofCode (abiKind a.tag)).bytes ∧ a.scalar ≠ [] ∧ a.handle = 0 ∧ a.rank = 0
  memref_kind : abiIsSlot a.tag = false → abiKind a.tag = abiKindMemref → a.scalar = []

structure WireResult.WellFormed (result : WireResult) : Prop where
  handle_lt : result.handle < 2 ^ 64
  rank_le : result.rank ≤ abiMaxRank
  sizes_length : result.sizes.length = result.rank
  sizes_i64 : ∀ v ∈ result.sizes, IsI64 v

theorem wireGetI32_rank {rank : ℕ} (h : rank ≤ abiMaxRank) (r : Bytes) :
    wireGetI32 (wirePutU32 rank ++ r) = some ((rank : ℤ), r) := by
  have hmax : abiMaxRank = 8 := rfl
  rw [← wirePutI32_natCast]
  exact wireGetI32_put (by omega) (by omega) r

theorem wireGetExtents_put {a : TaggedArg} (h : a.WellFormed) (r : Bytes) :
    wireGetExtents (wirePutU32 a.rank ++ a.sizes.flatMap wirePutI64 ++ a.strides.flatMap wirePutI64 ++ r) =
      some ((a.rank, a.sizes, a.strides), r) := by
  have hrank : ¬ ((a.rank : ℤ) < 0 ∨ (a.rank : ℤ) > abiMaxRank) := by
    have hle := h.rank_le
    omega
  have hsizes := fun r => wireGetI64s_put h.sizes_i64 r
  have hstrides := fun r => wireGetI64s_put h.strides_i64 r
  rw [h.sizes_length] at hsizes
  rw [h.strides_length] at hstrides
  simp only [wireGetExtents, append_assoc, wireGetI32_rank h.rank_le, bind_eq_bind, bind_some,
    if_neg hrank, toNat_natCast, hsizes, hstrides, Option.pure_def]

theorem wireGetArg_put {a : TaggedArg} (h : a.WellFormed) (r : Bytes) :
    wireGetArg (wirePutArg a ++ r) = some (a, r) := by
  have htag := fun r => wireGetU32_put h.tag_lt r
  have hhandle := fun r => wireGetU64_put h.handle_lt r
  have hextents := fun r => wireGetExtents_put h r
  obtain ⟨tag, scalar, handle, rank, sizes, strides⟩ := a
  unfold wirePutArg
  dsimp only
  by_cases hslot : abiIsSlot tag = true
  · obtain ⟨hscalar, hrank⟩ := h.slot hslot
    dsimp only at hscalar hrank
    subst hscalar
    rw [if_pos hslot]
    by_cases hzero : handle = 0
    · have hsizes : sizes = [] := eq_nil_of_length_eq_zero (h.sizes_length.trans (hrank hzero))
      have hstrides : strides = [] := eq_nil_of_length_eq_zero (h.strides_length.trans (hrank hzero))
      rw [if_neg (not_not.2 hzero), append_nil, hsizes, hstrides, hrank hzero]
      subst hzero
      exact wireGetArg_empty_slot (htag _) hslot (hhandle _)
    · rw [if_pos hzero, append_assoc]
      exact wireGetArg_slot (htag _) hslot (hhandle _) hzero (hextents r)
  · rw [if_neg hslot]
    rw [Bool.not_eq_true] at hslot
    by_cases hkind : abiKind tag = abiKindMemref
    · have hscalar : scalar = [] := h.memref_kind hslot hkind
      have hrank : rank = abiRank tag := h.memref hslot hkind
      subst hscalar hrank
      rw [if_neg (not_not.2 hkind), append_assoc]
      exact wireGetArg_memref (htag _) hslot hkind (hhandle _) (hextents r)
    · obtain ⟨hlen, hne, hzero, hrank⟩ := h.scalar_kind hslot hkind
      dsimp only at hlen hne hzero hrank
      have hsizes : sizes = [] := eq_nil_of_length_eq_zero (h.sizes_length.trans hrank)
      have hstrides : strides = [] := eq_nil_of_length_eq_zero (h.strides_length.trans hrank)
      have hwidth : (Dtype.ofCode (abiKind tag)).bytes ≠ 0 := by
        rw [← hlen]
        exact List.length_eq_zero_iff.not.2 hne
      have hget := wireGet_append scalar r
      rw [hlen] at hget
      rw [if_pos hkind, if_neg hwidth, take_of_length_le hlen.le, hzero, hrank, hsizes, hstrides]
      exact wireGetArg_scalar (htag _) hslot hkind hwidth hget

theorem wireGetArgs_put {args : List TaggedArg} (h : ∀ a ∈ args, a.WellFormed) (r : Bytes) :
    wireGetArgs args.length (args.flatMap wirePutArg ++ r) = some (args, r) := by
  induction args with
  | nil => rfl
  | cons a args ih =>
    have ha := h a mem_cons_self
    have hrest := ih fun x hx => h x (mem_cons_of_mem _ hx)
    simp [wireGetArgs, wireGetArg_put ha, hrest]

theorem wireGetResult_put {result : WireResult} (h : result.WellFormed) (r : Bytes) :
    wireGetResult (wirePutResult result ++ r) = some (result, r) := by
  have hsizes := wireGetI64s_put h.sizes_i64 r
  rw [h.sizes_length] at hsizes
  rw [wirePutResult, wirePutI32_natCast, append_assoc, append_assoc]
  exact wireGetResult_some (wireGetU64_put h.handle_lt _) (wireGetI32_rank h.rank_le _) h.rank_le hsizes

theorem wireGetResults_put {results : List WireResult} (h : ∀ a ∈ results, a.WellFormed) (r : Bytes) :
    wireGetResults results.length (results.flatMap wirePutResult ++ r) = some (results, r) := by
  induction results with
  | nil => rfl
  | cons a results ih =>
    have ha := h a mem_cons_self
    have hrest := ih fun x hx => h x (mem_cons_of_mem _ hx)
    simp [wireGetResults, wireGetResult_put ha, hrest]

end

theorem length_wirePutU32 (v : ℕ) : (wirePutU32 v).length = 4 := rfl

theorem length_wirePutU64 (v : ℕ) : (wirePutU64 v).length = 8 := rfl

theorem le_length_wirePutArg (a : TaggedArg) : 4 ≤ (wirePutArg a).length := by
  rw [wirePutArg, length_append, length_wirePutU32]
  omega

theorem le_length_wirePutResult (result : WireResult) : 12 ≤ (wirePutResult result).length := by
  rw [wirePutResult, length_append, length_append, length_wirePutU64, wirePutI32, length_wirePutU32]
  omega

theorem le_length_flatMap {α : Type} {put : α → Bytes} {size : ℕ} (h : ∀ x, size ≤ (put x).length) (l : List α) :
    l.length * size ≤ (l.flatMap put).length := by
  induction l with
  | nil => simp
  | cons x l ih =>
    have hx := h x
    rw [flatMap_cons, length_append, length_cons, Nat.succ_mul]
    omega

theorem wireGetDispatch_put {payload : Bytes} {args : List TaggedArg} (hp : payload.length < 2 ^ 64)
    (ha : args.length < 2 ^ 63) (r : Bytes) : wireGetDispatch (wirePutDispatch payload args ++ r) =
      some ((payload, args.length), args.flatMap wirePutArg ++ r) := by
  have hfit := le_length_flatMap le_length_wirePutArg args
  rw [wirePutDispatch, append_assoc, append_assoc, append_assoc]
  refine wireGetDispatch_some (wireGetU64_put hp _) (wireGet_append payload _) (wireGetI64_put ?_ _) ?_
  · exact ⟨by omega, by omega⟩
  · rw [length_append]
    omega

theorem wireGetResultsHeader_put {status : ℤ} {results : List WireResult} (hlow : -2 ^ 31 ≤ status)
    (hhigh : status < 2 ^ 31) (hr : results.length < 2 ^ 63) (r : Bytes) :
    wireGetResultsHeader (wirePutResults status results ++ r) =
      some ((status, results.length), results.flatMap wirePutResult ++ r) := by
  have hfit := le_length_flatMap le_length_wirePutResult results
  refine wireGetResultsHeader_some (wireGetI32_put hlow hhigh _) (wireGetI64_put ?_ _) ?_
  · exact ⟨by omega, by omega⟩
  · rw [length_append]
    omega

variable {bytes : Bytes} {n : ℕ} {r' : Bytes}

theorem wireGet_eq_some {b r : Bytes} (h : wireGet n r = some (b, r')) : r = b ++ r' ∧ b.length = n := by
  unfold wireGet at h
  split at h
  case isTrue hle =>
    cases h
    exact ⟨(take_append_drop n r).symm, by rw [length_take, Nat.min_eq_left hle]⟩
  case isFalse => cases h

variable {r : Bytes}

theorem wireGetU32_suffix {v : ℕ} (h : wireGetU32 r = some (v, r')) : r' <:+ r := by
  obtain ⟨⟨b, s⟩, hget, heq⟩ := Option.map_eq_some_iff.1 h
  cases heq
  exact ⟨b, (wireGet_eq_some hget).1.symm⟩

theorem wireGetU64_suffix {v : ℕ} (h : wireGetU64 r = some (v, r')) : r' <:+ r := by
  simp only [wireGetU64, bind_eq_bind, bind_eq_some_iff] at h
  obtain ⟨⟨lo, r₁⟩, hlo, ⟨hi, r₂⟩, hhi, heq⟩ := h
  cases heq
  exact (wireGetU32_suffix hhi).trans (wireGetU32_suffix hlo)

theorem wireGetI64_suffix {v : ℤ} (h : wireGetI64 r = some (v, r')) : r' <:+ r := by
  obtain ⟨⟨u, s⟩, hget, heq⟩ := Option.map_eq_some_iff.1 h
  have hs : s = r' := congrArg Prod.snd heq
  rw [← hs]
  exact wireGetU64_suffix hget

theorem wireGetDispatch_inv {payload r : Bytes} (h : wireGetDispatch bytes = some ((payload, n), r)) :
    (∃ before after, bytes = before ++ payload ++ after ∧ r <:+ after) ∧ n * 4 % addressSpace ≤ r.length := by
  simp only [wireGetDispatch, bind_eq_bind, bind_eq_some_iff] at h
  obtain ⟨⟨length, r₁⟩, hlength, ⟨payload', r₂⟩, hpayload, ⟨count, r₃⟩, hcount, hif⟩ := h
  split at hif
  · cases hif
  next hok =>
    cases hif
    obtain ⟨before, hbefore⟩ := wireGetU64_suffix hlength
    refine ⟨⟨before, r₂, ?_, wireGetI64_suffix hcount⟩, by omega⟩
    have hr₁ : r₁ = payload' ++ r₂ := (wireGet_eq_some hpayload).1
    rw [← hbefore, hr₁, append_assoc]

theorem wireGetResultsHeader_inv {status : ℤ}
    (h : wireGetResultsHeader bytes = some ((status, n), r)) : n * 12 % addressSpace ≤ r.length := by
  simp only [wireGetResultsHeader, bind_eq_bind, bind_eq_some_iff] at h
  obtain ⟨⟨status', r₁⟩, -, ⟨count, r₂⟩, -, hif⟩ := h
  split at hif
  · cases hif
  next hok =>
    cases hif
    omega

structure WithinBytes (bytes : Bytes) : Prop where
  payload : ∀ payload n r, wireGetDispatch bytes = some ((payload, n), r) →
    ∃ before after, bytes = before ++ payload ++ after ∧ r <:+ after
  args : ∀ payload n r, wireGetDispatch bytes = some ((payload, n), r) → n * 4 ≤ r.length
  results : ∀ status n r, wireGetResultsHeader bytes = some ((status, n), r) → n * 12 ≤ r.length

structure CountsFit (bytes : Bytes) : Prop where
  args : ∀ payload n r, wireGetDispatch bytes = some ((payload, n), r) → n * 4 < addressSpace
  results : ∀ status n r, wireGetResultsHeader bytes = some ((status, n), r) → n * 12 < addressSpace

theorem wireGetResultsHeader_suffix {status : ℤ}
    (h : wireGetResultsHeader bytes = some ((status, n), r)) : r <:+ bytes := by
  simp only [wireGetResultsHeader, bind_eq_bind, bind_eq_some_iff] at h
  obtain ⟨⟨status', r₁⟩, hstatus, ⟨count, r₂⟩, hcount, hif⟩ := h
  obtain ⟨⟨u, s⟩, hget, heq⟩ := Option.map_eq_some_iff.1 hstatus
  have hs : s = r₁ := congrArg Prod.snd heq
  rw [hs] at hget
  split at hif
  · cases hif
  · cases hif
    exact (wireGetI64_suffix hcount).trans (wireGetU32_suffix hget)

theorem withinBytes_iff (hbytes : bytes.length < addressSpace) : WithinBytes bytes ↔ CountsFit bytes := by
  constructor
  · intro h
    refine ⟨?_, ?_⟩
    · intro payload n r hget
      obtain ⟨before, after, heq, hsuffix⟩ := h.payload payload n r hget
      have hle := h.args payload n r hget
      have hlen := hsuffix.length_le
      rw [heq, length_append] at hbytes
      omega
    · intro status n r hget
      have hle := h.results status n r hget
      have hlen := (wireGetResultsHeader_suffix hget).length_le
      omega
  · intro h
    refine ⟨fun payload n r hget => (wireGetDispatch_inv hget).1, ?_, ?_⟩
    · intro payload n r hget
      have hmod := (wireGetDispatch_inv hget).2
      rwa [Nat.mod_eq_of_lt (h.args payload n r hget)] at hmod
    · intro status n r hget
      have hmod := wireGetResultsHeader_inv hget
      rwa [Nat.mod_eq_of_lt (h.results status n r hget)] at hmod

/-- What is written without overflow is read back, and nothing after it is read. The buffer and the payload are
objects of one memory. -/
structure RoundTrips : Prop where
  dispatch : ∀ capacity payload args rest, capacity + payload.length + 8 < addressSpace →
    (∀ a ∈ args, TaggedArg.WellFormed a) → ((Writer.init capacity).putDispatch payload args).overflow = false →
    ∃ r, wireGetDispatch (((Writer.init capacity).putDispatch payload args).written ++ rest) =
        some ((payload, args.length), r) ∧ wireGetArgs args.length r = some (args, rest)
  results : ∀ capacity status results rest, capacity + 8 < addressSpace → -2 ^ 31 ≤ status → status < 2 ^ 31 →
    (∀ a ∈ results, WireResult.WellFormed a) → ((Writer.init capacity).putResults status results).overflow = false →
    ∃ r, wireGetResultsHeader (((Writer.init capacity).putResults status results).written ++ rest) =
        some ((status, results.length), r) ∧ wireGetResults results.length r = some (results, rest)

theorem Adds.written_init {capacity : ℕ} {b : Bytes} {w : Writer} (h : Adds (Writer.init capacity) b w)
    (ho : w.overflow = false) : w.written = b ∧ b.length ≤ capacity := by
  have hempty : (Writer.init capacity).written.length ≤ (Writer.init capacity).capacity := Nat.zero_le _
  have hwritten : w.written = b := (h.written hempty ho).2
  have hle := h.bounded hempty
  rw [hwritten, h.capacity] at hle
  exact ⟨hwritten, hle⟩

theorem roundTrips : RoundTrips where
  dispatch capacity payload args rest hmem hargs ho := by
    obtain ⟨hwritten, hle⟩ := (adds_putDispatch (Writer.init capacity) payload args hmem).written_init ho
    have hfit := le_length_flatMap le_length_wirePutArg args
    have hspace : addressSpace = 2 ^ 64 := rfl
    have hlength : (args.flatMap wirePutArg).length ≤ (wirePutDispatch payload args).length := by
      rw [wirePutDispatch, length_append]
      omega
    rw [hwritten]
    exact ⟨_, wireGetDispatch_put (by omega) (by omega) rest, wireGetArgs_put hargs rest⟩
  results capacity status results rest hmem hlow hhigh hresults ho := by
    obtain ⟨hwritten, hle⟩ := (adds_putResults (Writer.init capacity) hmem status results).written_init ho
    have hfit := le_length_flatMap le_length_wirePutResult results
    have hspace : addressSpace = 2 ^ 64 := rfl
    have hlength : (results.flatMap wirePutResult).length ≤ (wirePutResults status results).length := by
      rw [wirePutResults, length_append]
      omega
    rw [hwritten]
    exact ⟨_, wireGetResultsHeader_put hlow hhigh (by omega) rest, wireGetResults_put hresults rest⟩

theorem wire_decoding_iff (bytes : Bytes) (hbytes : bytes.length < addressSpace) :
    RoundTrips ∧ (WithinBytes bytes ↔ CountsFit bytes) :=
  ⟨roundTrips, withinBytes_iff hbytes⟩

/-- A dispatch with a payload of two bytes and one argument. -/
def dispatched : Bytes := wirePutU64 2 ++ [7, 8] ++ wirePutI64 1 ++ wirePutU32 0

theorem wire_decoding_iff_dispatched : RoundTrips ∧
    wireGetDispatch dispatched = some (([7, 8], 1), [0, 0, 0, 0]) ∧ WithinBytes dispatched := by
  have hdispatch : wireGetDispatch dispatched = some (([7, 8], 1), [0, 0, 0, 0]) := by decide
  have hresults : wireGetResultsHeader dispatched = none := by decide
  obtain ⟨hround, hwithin⟩ := wire_decoding_iff dispatched (by decide)
  refine ⟨hround, hdispatch, hwithin.mpr ⟨fun payload n r hget => ?_, fun status n r hget => ?_⟩⟩
  · cases hdispatch.symm.trans hget
    decide
  · cases hresults.symm.trans hget

def announcing (n : ℤ) : Bytes := wirePutU64 0 ++ wirePutI64 n

/-- A count of `2 ^ 62` passes both checks with no byte left. -/
theorem huge_count_accepted : wireGetDispatch (announcing (2 ^ 62)) = some (([], 2 ^ 62), []) ∧
    wireGetResultsHeader (wirePutI32 0 ++ wirePutI64 (2 ^ 62)) = some ((0, 2 ^ 62), []) ∧
    ¬ WithinBytes (announcing (2 ^ 62)) := by
  have hdispatch : wireGetDispatch (announcing (2 ^ 62)) = some (([], 2 ^ 62), []) := by decide
  refine ⟨hdispatch, by decide, ?_⟩
  intro h
  have hle := h.args [] (2 ^ 62) [] hdispatch
  exact absurd hle (by decide)

end Vx.Remote
