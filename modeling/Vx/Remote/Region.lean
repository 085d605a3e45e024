import Mathlib

namespace Vx.Remote

open Function (update)

def offsetMask : ℕ := 2 ^ 47 - 1

def minGap : ℕ := 2 ^ 20

def workerMax : ℕ := 255

def remoteAddr (worker offset : ℕ) : ℕ := worker * 2 ^ 48 + offset % 2 ^ 47

def addrWorker (addr : ℕ) : ℕ := addr / 2 ^ 48 % 256

def addrIsHandle (addr : ℕ) : Bool := addr / 2 ^ 56 = 0 && addr / 2 ^ 48 % 256 ≠ 0 && addr / 2 ^ 47 % 2 = 0

structure Region where
  base : ℕ
  size : ℕ
  worker : ℕ
  live : Bool
deriving DecidableEq, Repr

structure Table where
  regions : List Region
  capacity : ℕ
  nextOffset : ℕ → ℕ

def gapAfter (size : ℕ) : ℕ := if size > minGap then size else minGap

def Table.alloc (t : Table) (worker size : ℕ) : Option (ℕ × Table) :=
  let base := t.nextOffset worker
  if worker = 0 ∨ worker > workerMax ∨ size = 0 then none
  else if t.regions.length = t.capacity then none
  else if size > offsetMask ∨ base > offsetMask - size ∨ base + size > offsetMask - gapAfter size then none
  else some (remoteAddr worker base, { t with
    regions := t.regions ++ [⟨remoteAddr worker base, size, worker, true⟩]
    nextOffset := update t.nextOffset worker (base + size + gapAfter size) })

def bisect (base : ℕ → ℕ) (addr : ℕ) : ℕ → ℕ → ℕ → Option ℕ → Option ℕ
  | 0, _, _, best => best
  | fuel + 1, lo, hi, best =>
    if lo < hi then
      let mid := lo + (hi - lo) / 2
      if base mid ≤ addr then bisect base addr fuel (mid + 1) hi (some mid) else bisect base addr fuel lo mid best
    else best

def Table.resolve (t : Table) (addr : ℕ) : Option (ℕ × ℕ) :=
  let base i := (t.regions[i]?.map Region.base).getD 0
  if !addrIsHandle addr then none
  else match bisect base addr t.regions.length 0 t.regions.length none with
  | none => none
  | some best =>
    match t.regions[best]? with
    | none => none
    | some r =>
      if !r.live ∨ addr - r.base ≥ r.size then none
      else if addrWorker addr ≠ r.worker then none
      else some (best, addr - r.base)

section
variable {base : ℕ → ℕ} {fuel hi lo : ℕ} {best : Option ℕ}

theorem bisect_eq {addr i : ℕ} (hle : ∀ j ≤ i, base j ≤ addr)
    (hgt : ∀ j, i < j → j < hi → addr < base j) (hfuel : hi - lo ≤ fuel) (hlo : lo ≤ i + 1) (hhi : i < hi)
    (hbest : lo = i + 1 → best = some i) : bisect base addr fuel lo hi best = some i := by
  induction fuel generalizing lo hi best with
  | zero => exact hbest (by omega)
  | succ fuel ih =>
    rw [bisect]
    split
    next hlt =>
      simp only
      split
      next hmid =>
        have hmi : lo + (hi - lo) / 2 ≤ i := by
          by_contra hgt'
          have := hgt (lo + (hi - lo) / 2) (by omega) (by omega)
          omega
        refine ih hgt (by omega) (by omega) hhi fun heq => ?_
        congr 1
        omega
      next hmid =>
        have hmi : i < lo + (hi - lo) / 2 := by
          by_contra hle'
          exact hmid (hle _ (by omega))
        exact ih (fun j hj hj' => hgt j hj (by omega)) (by omega) hlo hmi hbest
    next hge => exact hbest (by omega)

theorem bisect_some {addr j : ℕ}
    (h : bisect base addr fuel lo hi best = some j) : best = some j ∨ lo ≤ j ∧ j < hi ∧ base j ≤ addr := by
  induction fuel generalizing lo hi best with
  | zero => exact .inl h
  | succ fuel ih =>
    rw [bisect] at h
    split at h
    next hlt =>
      simp only at h
      split at h
      next hmid =>
        rcases ih h with hbest | ⟨hlo, hhi, hle⟩
        · cases hbest
          exact .inr ⟨by omega, by omega, hmid⟩
        · exact .inr ⟨by omega, hhi, hle⟩
      next hmid =>
        rcases ih h with hbest | ⟨hlo, hhi, hle⟩
        · exact .inl hbest
        · exact .inr ⟨hlo, by omega, hle⟩
    next hge => exact .inl h

theorem le_of_bisect {i : ℕ} {best' : Option ℕ} (hlo : lo ≤ i) (hhi : i + 1 < hi)
    (hbest : ∀ j, best = some j → j < lo) (hbest' : ∀ j, best' = some j → j < lo)
    (h : bisect base (base i) fuel lo hi best = some i)
    (h' : bisect base (base (i + 1)) fuel lo hi best' = some (i + 1)) : base i ≤ base (i + 1) := by
  induction fuel generalizing lo hi best best' with
  | zero =>
    have := hbest i h
    omega
  | succ fuel ih =>
    rw [bisect, if_pos (by omega)] at h h'
    simp only at h h'
    generalize hmid : lo + (hi - lo) / 2 = mid at h h'
    -- A search that turns away from its own index does not come back to it.
    have hleft : ∀ k x, (x = some k → False) → mid ≤ k → bisect base (base k) fuel lo mid x ≠ some k := by
      intro k x hx hk hfound
      rcases bisect_some hfound with hx' | ⟨-, hlt, -⟩
      · exact hx hx'
      · omega
    have hright : ∀ k, k < mid → bisect base (base k) fuel (mid + 1) hi (some mid) ≠ some k := by
      intro k hk hfound
      rcases bisect_some hfound with hx | ⟨hge, -, -⟩
      · cases hx
        omega
      · omega
    rcases Nat.lt_trichotomy mid i with hlt | rfl | hgt
    · split at h
      · split at h'
        · exact ih (by omega) hhi (by simp) (by simp) h h'
        · exact absurd h' (hleft (i + 1) best' (fun hx => by have := hbest' _ hx; omega) (by omega))
      · exact absurd h (hleft i best (fun hx => by have := hbest _ hx; omega) (by omega))
    · split at h'
      · assumption
      · exact absurd h' (hleft (mid + 1) best' (fun hx => by have := hbest' _ hx; omega) (by omega))
    · split at h
      · exact absurd h (hright i hgt)
      next hbase =>
        rcases Nat.lt_or_eq_of_le (show i + 1 ≤ mid from hgt) with hlt | rfl
        · split at h'
          · exact absurd h' (hright (i + 1) hlt)
          · exact ih hlo (by omega) hbest hbest' h h'
        · omega

end

structure Table.Ok (t : Table) (worker : ℕ) : Prop where
  worker_pos : 0 < worker
  worker_le : worker ≤ workerMax
  region : ∀ r ∈ t.regions, r.worker = worker ∧ 0 < r.size ∧
    ∃ o, r.base = remoteAddr worker o ∧ o + r.size ≤ t.nextOffset worker ∧ o + r.size ≤ offsetMask
  ascending : t.regions.Pairwise fun r r' => r.base + r.size ≤ r'.base

variable {t t' : Table} {worker size handle : ℕ}

theorem Table.getElem_base (t : Table) {j : ℕ} (hj : j < t.regions.length) :
    (t.regions[j]?.map Region.base).getD 0 = (t.regions[j]).base := by
  rw [List.getElem?_eq_getElem hj]
  rfl

variable {i o : ℕ} {r : Region}

theorem bisect_of_ascending (h : t.regions.Pairwise fun r r' => r.base + r.size ≤ r'.base)
    (hi : t.regions[i]? = some r) (ho : o < r.size) :
    bisect (fun i => (t.regions[i]?.map Region.base).getD 0) (r.base + o) t.regions.length 0 t.regions.length none =
      some i := by
  have hlength : i < t.regions.length := (List.getElem?_eq_some_iff.mp hi).1
  have hpairwise := List.pairwise_iff_getElem.mp h
  have hr : t.regions[i] = r := (List.getElem?_eq_some_iff.mp hi).2
  apply bisect_eq
  · intro j hj
    rw [t.getElem_base (by omega)]
    rcases Nat.lt_or_eq_of_le hj with hlt | rfl
    · have := hpairwise j i (by omega) hlength hlt
      rw [hr] at this
      omega
    · rw [hr]
      omega
  · intro j hj hj'
    rw [t.getElem_base hj']
    have := hpairwise i j hlength hj' hj
    rw [hr] at this
    omega
  · omega
  · omega
  · exact hlength
  · omega

theorem Table.resolve_of_ascending (h : t.regions.Pairwise fun r r' => r.base + r.size ≤ r'.base)
    (hi : t.regions[i]? = some r) (hlive : r.live = true) (ho : o < r.size) (hhandle : addrIsHandle (r.base + o) = true)
    (hworker : addrWorker (r.base + o) = r.worker) : t.resolve (r.base + o) = some (i, o) := by
  have hfind := bisect_of_ascending h hi ho
  have hsub : r.base + o - r.base = o := by omega
  simp [Table.resolve, hhandle, hfind, hi, hsub, hlive, ho, hworker]

theorem remoteAddr_add {k size : ℕ} (hpos : 0 < worker) (hmax : worker ≤ workerMax) (hmask : o + size ≤ offsetMask)
    (hk : k < size) : addrIsHandle (remoteAddr worker o + k) = true ∧ addrWorker (remoteAddr worker o + k) = worker := by
  simp only [offsetMask, workerMax] at hmask hmax
  have haddr : remoteAddr worker o = worker * 2 ^ 48 + o := by rw [remoteAddr, Nat.mod_eq_of_lt (by omega)]
  constructor
  · simp only [addrIsHandle, Bool.and_eq_true, decide_eq_true_eq, ne_eq, decide_not, Bool.not_eq_true',
      decide_eq_false_iff_not]
    omega
  · rw [addrWorker]
    omega

theorem Table.Ok.resolve (h : t.Ok worker) (hi : t.regions[i]? = some r) (hlive : r.live = true)
    (ho : o < r.size) : t.resolve (r.base + o) = some (i, o) := by
  obtain ⟨hworker, -, o', hbase, -, hmask⟩ := h.region r (List.mem_of_getElem? hi)
  obtain ⟨hhandle, haddr⟩ := remoteAddr_add h.worker_pos h.worker_le hmask ho
  rw [← hbase] at hhandle haddr
  exact t.resolve_of_ascending h.ascending hi hlive ho hhandle (haddr.trans hworker.symm)

theorem Table.Ok.alloc (h : t.Ok worker) (halloc : t.alloc worker size = some (handle, t')) :
    t'.Ok worker ∧ t'.regions = t.regions ++ [⟨handle, size, worker, true⟩] ∧ 0 < size ∧ handle ≠ 0 := by
  have hpos := h.worker_pos
  simp only [Table.alloc] at halloc
  split_ifs at halloc with hbad hfull hroom
  cases halloc
  have hsize : 0 < size := by omega
  have hend : t.nextOffset worker + size ≤ offsetMask := by
    omega
  have hbase : remoteAddr worker (t.nextOffset worker) = worker * 2 ^ 48 + t.nextOffset worker := by
    simp only [offsetMask] at hend
    rw [remoteAddr, Nat.mod_eq_of_lt (by omega)]
  refine ⟨⟨hpos, h.worker_le, ?_, ?_⟩, rfl, hsize, by omega⟩
  · intro r hr
    simp only [Function.update_self]
    rcases List.mem_append.mp hr with hr | hr
    · obtain ⟨hworker, hr, o, ho, hle, hmask⟩ := h.region r hr
      exact ⟨hworker, hr, o, ho, by omega, hmask⟩
    · rw [List.mem_singleton.mp hr]
      exact ⟨rfl, hsize, t.nextOffset worker, rfl, Nat.le_add_right .., hend⟩
  · refine List.pairwise_append.mpr ⟨h.ascending, List.pairwise_singleton .., ?_⟩
    intro r hr r' hr'
    obtain ⟨-, -, o, ho, hle, hmask⟩ := h.region r hr
    rw [List.mem_singleton.mp hr', hbase, ho]
    simp only [remoteAddr, offsetMask] at hmask ⊢
    omega

end Vx.Remote
