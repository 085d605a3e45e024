import Vx.Remote.Region

namespace Vx.Remote

open List Option

def Table.init (capacity : ℕ) : Table := ⟨[], capacity, fun _ => minGap⟩

def Table.free (t : Table) (base : ℕ) : Option Table :=
  match t.regions.findIdx? fun r => r.base = base && r.live with
  | none => none
  | some i => some { t with regions := t.regions.modify i fun r => { r with live := false } }

def Table.freeAll (t : Table) : Table := { t with regions := [] }

inductive Op
  | alloc (worker size : ℕ)
  | free (base : ℕ)
  | freeAll
deriving DecidableEq, Repr

structure History where
  table : Table
  log : List Region

def History.init (capacity : ℕ) : History := ⟨.init capacity, []⟩

def History.step (h : History) : Op → History
  | .alloc worker size =>
    match h.table.alloc worker size with
    | none => h
    | some (base, table) => ⟨table, h.log ++ [⟨base, size, worker, true⟩]⟩
  | .free base =>
    match h.table.free base with
    | none => h
    | some table => { h with table }
  | .freeAll => { h with table := h.table.freeAll }

def History.run (h : History) (ops : List Op) : History := ops.foldl History.step h

section

def Region.reach (r : Region) : ℕ := r.base + r.size + gapAfter r.size

def Region.given (r : Region) : Region := { r with live := true }

structure Region.Ok (nextOffset : ℕ → ℕ) (r : Region) : Prop where
  worker_pos : 0 < r.worker
  worker_le : r.worker ≤ workerMax
  size_pos : 0 < r.size
  base : ∃ o, r.base = remoteAddr r.worker o ∧ o + r.size + gapAfter r.size ≤ nextOffset r.worker ∧
    o + r.size + gapAfter r.size ≤ offsetMask

def Follows (r r' : Region) : Prop := r.worker = r'.worker → r.reach ≤ r'.base

structure History.Ok (h : History) : Prop where
  region : ∀ r ∈ h.log, r.Ok h.table.nextOffset
  follows : h.log.Pairwise Follows
  known : (h.table.regions.map Region.given).Sublist h.log

variable {h h' : History} {r r' : Region} {nextOffset : ℕ → ℕ}

theorem Region.Ok.mono {nextOffset' : ℕ → ℕ} (hr : r.Ok nextOffset)
    (hle : ∀ w, nextOffset w ≤ nextOffset' w) : r.Ok nextOffset' := by
  obtain ⟨o, hbase, hnext, hmask⟩ := hr.base
  exact ⟨hr.worker_pos, hr.worker_le, hr.size_pos, o, hbase, hnext.trans (hle _), hmask⟩

theorem Region.Ok.bounds (hr : r.Ok nextOffset) :
    r.worker * 2 ^ 48 ≤ r.base ∧ r.reach ≤ r.worker * 2 ^ 48 + nextOffset r.worker ∧ r.reach < (r.worker + 1) * 2 ^ 48 := by
  obtain ⟨o, hbase, hnext, hmask⟩ := hr.base
  simp only [offsetMask] at hmask
  have haddr : r.base = r.worker * 2 ^ 48 + o := by rw [hbase, remoteAddr, Nat.mod_eq_of_lt (by omega)]
  simp only [Region.reach]
  omega

theorem Region.Ok.handle (hr : r.Ok nextOffset) {k : ℕ} (hk : k < r.size + gapAfter r.size) :
    addrIsHandle (r.base + k) = true ∧ addrWorker (r.base + k) = r.worker := by
  obtain ⟨o, hbase, -, hmask⟩ := hr.base
  rw [hbase]
  exact remoteAddr_add hr.worker_pos hr.worker_le (show o + (r.size + gapAfter r.size) ≤ offsetMask by omega) hk

theorem reach_le (hr : r.Ok nextOffset) (hr' : r'.Ok nextOffset) (hfollows : Follows r r') :
    r.reach ≤ r'.base ∨ r'.reach ≤ r.base := by
  have hb := hr.bounds
  have hb' := hr'.bounds
  rcases Nat.lt_trichotomy r.worker r'.worker with hlt | heq | hgt
  · have := Nat.mul_le_mul_right (2 ^ 48) (Nat.succ_le_of_lt hlt)
    omega
  · exact .inl (hfollows heq)
  · have := Nat.mul_le_mul_right (2 ^ 48) (Nat.succ_le_of_lt hgt)
    omega

theorem History.init_ok (capacity : ℕ) : (History.init capacity).Ok :=
  ⟨by simp [History.init], by simp [History.init], by simp [History.init, Table.init]⟩

theorem Table.alloc_some {t t' : Table} {worker size base : ℕ} (halloc : t.alloc worker size = some (base, t')) :
    (⟨base, size, worker, true⟩ : Region).Ok t'.nextOffset ∧ base = worker * 2 ^ 48 + t.nextOffset worker ∧
      t'.regions = t.regions ++ [⟨base, size, worker, true⟩] ∧ ∀ w, t.nextOffset w ≤ t'.nextOffset w := by
  simp only [Table.alloc] at halloc
  split_ifs at halloc with hbad hfull hroom
  cases halloc
  have hend : t.nextOffset worker + size + gapAfter size ≤ offsetMask := by
    omega
  refine ⟨⟨by simp only; omega, by simp only; omega, by simp only; omega, t.nextOffset worker, rfl, ?_, hend⟩, ?_, rfl, ?_⟩
  · simp [Function.update_self]
  · simp only [offsetMask] at hend
    rw [remoteAddr, Nat.mod_eq_of_lt (by omega)]
  · intro w
    rcases eq_or_ne w worker with rfl | hne
    · simp only [Function.update_self]
      omega
    · simp [Function.update_of_ne hne]

theorem Table.free_some {t t' : Table} {base : ℕ} (hfree : t.free base = some t') :
    ∃ i r, t.regions[i]? = some r ∧ r.base = base ∧ r.live = true ∧
      t' = { t with regions := t.regions.modify i fun r => { r with live := false } } := by
  unfold Table.free at hfree
  split at hfree
  · cases hfree
  next i hi =>
    cases hfree
    obtain ⟨hlt, hmatch, -⟩ := List.findIdx?_eq_some_iff_getElem.mp hi
    simp only [Bool.and_eq_true, decide_eq_true_eq] at hmatch
    exact ⟨i, _, List.getElem?_eq_getElem hlt, hmatch.1, hmatch.2, rfl⟩

theorem map_given_modify (regions : List Region) (i : ℕ) :
    (regions.modify i fun r => { r with live := false }).map Region.given = regions.map Region.given := by
  refine ext_getElem? fun j => ?_
  rw [List.getElem?_map, List.getElem?_map, List.getElem?_modify]
  split
  · cases regions[j]? <;> rfl
  · simp

theorem History.Ok.step (hok : h.Ok) (op : Op) : (h.step op).Ok := by
  cases op with
  | alloc worker size =>
    cases halloc : h.table.alloc worker size with
    | none => simpa only [History.step, halloc] using hok
    | some r =>
      obtain ⟨base, table⟩ := r
      obtain ⟨hnew, hbase, hregions, hnext⟩ := Table.alloc_some halloc
      simp only [History.step, halloc]
      refine ⟨fun r hr => ?_, List.pairwise_append.mpr ⟨hok.follows, pairwise_singleton .., ?_⟩, ?_⟩
      · rcases List.mem_append.mp hr with hr | hr
        · exact (hok.region r hr).mono hnext
        · rw [List.mem_singleton.mp hr]
          exact hnew
      · intro r hr r' hr' hworker
        obtain rfl := List.mem_singleton.mp hr'
        have hbounds := (hok.region r hr).bounds
        rw [hworker] at hbounds
        simp only at hbounds ⊢
        omega
      · simp only [hregions, map_append]
        exact hok.known.append (List.Sublist.refl _)
  | free base =>
    cases hfree : h.table.free base with
    | none => simpa only [History.step, hfree] using hok
    | some table =>
      obtain ⟨i, r, -, -, -, rfl⟩ := Table.free_some hfree
      simp only [History.step, hfree]
      exact ⟨hok.region, hok.follows, (map_given_modify h.table.regions i).symm ▸ hok.known⟩
  | freeAll => exact ⟨hok.region, hok.follows, by simp [History.step, Table.freeAll]⟩

theorem History.Ok.run (hok : h.Ok) (ops : List Op) : (h.run ops).Ok := by
  induction ops generalizing h with
  | nil => exact hok
  | cons op ops ih => exact ih (hok.step op)

theorem History.Ok.apart (hok : h.Ok) : h.log.Pairwise fun r r' => r.reach ≤ r'.base ∨ r'.reach ≤ r.base :=
  hok.follows.imp_of_mem fun hr hr' hfollows => reach_le (hok.region _ hr) (hok.region _ hr') hfollows

theorem History.Ok.unique (hok : h.Ok) (hr : r ∈ h.log) (hr' : r' ∈ h.log) {a : ℕ} (ha : r.base ≤ a) (hlt : a < r.reach)
    (ha' : r'.base ≤ a) (hlt' : a < r'.reach) : r = r' := by
  by_contra hne
  have hsymm : Std.Symm fun r r' : Region => r.reach ≤ r'.base ∨ r'.reach ≤ r.base := ⟨fun _ _ => Or.symm⟩
  have hapart := hok.apart.forall hr hr' hne
  omega

theorem History.Ok.given_mem (hok : h.Ok) (hr : r ∈ h.table.regions) : r.given ∈ h.log :=
  hok.known.subset (List.mem_map_of_mem hr)

variable {h : History} {t : Table}

def Names (t : Table) (a i off : ℕ) : Prop :=
  ∃ r, t.regions[i]? = some r ∧ r.live = true ∧ off < r.size ∧ a = r.base + off

theorem resolve_some {a i off : ℕ} (hresolve : t.resolve a = some (i, off)) :
    bisect (fun i => (t.regions[i]?.map Region.base).getD 0) a t.regions.length 0 t.regions.length none = some i ∧
      Names t a i off := by
  simp only [Table.resolve] at hresolve
  split_ifs at hresolve
  split at hresolve
  · cases hresolve
  next best hbest =>
    split at hresolve
    · cases hresolve
    next r hr =>
      split_ifs at hresolve with hdead hworker
      cases hresolve
      have hle : r.base ≤ a := by
        rcases bisect_some hbest with hnone | ⟨-, -, hle⟩
        · cases hnone
        · simpa [hr] using hle
      simp only [Bool.not_eq_true', not_or, Bool.not_eq_false, not_le] at hdead
      exact ⟨hbest, r, hr, hdead.1, hdead.2, by omega⟩

def Table.Ascending (t : Table) : Prop := (t.regions.map Region.worker).Pairwise (· ≤ ·)

instance (t : Table) : Decidable t.Ascending := inferInstanceAs (Decidable (List.Pairwise _ _))

theorem History.Ok.resolve (hok : h.Ok) (hasc : h.table.Ascending) {a i off : ℕ} (hnames : Names h.table a i off) :
    h.table.resolve a = some (i, off) := by
  obtain ⟨r, hi, hlive, hoff, rfl⟩ := hnames
  have hmem := mem_of_getElem? hi
  have hr := hok.region _ (hok.given_mem hmem)
  have hsorted : h.table.regions.Pairwise fun r r' => r.base + r.size ≤ r'.base := by
    have hfollows := List.pairwise_map.mp (hok.follows.sublist hok.known)
    refine (hfollows.and (List.pairwise_map.mp hasc)).imp_of_mem fun {x y} hx hy hxy => ?_
    have hbx := (hok.region _ (hok.given_mem hx)).bounds
    have hby := (hok.region _ (hok.given_mem hy)).bounds
    simp only [Region.given, Region.reach] at hbx hby
    rcases Nat.lt_or_eq_of_le hxy.2 with hlt | heq
    · have := Nat.mul_le_mul_right (2 ^ 48) (Nat.succ_le_of_lt hlt)
      omega
    · have := hxy.1 heq
      simp only [Region.given, Region.reach] at this
      omega
  have hhandle := hr.handle (show off < r.size + gapAfter r.size by omega)
  exact h.table.resolve_of_ascending hsorted hi hlive hoff hhandle.1 hhandle.2

theorem History.Ok.ascending (hok : h.Ok) (hlive : ∀ r ∈ h.table.regions, r.live = true)
    (hall : ∀ a i off, Names h.table a i off → h.table.resolve a = some (i, off)) : h.table.Ascending := by
  have hfind : ∀ i (hi : i < h.table.regions.length),
      bisect (fun i => (h.table.regions[i]?.map Region.base).getD 0) ((h.table.regions[i]?.map Region.base).getD 0)
        h.table.regions.length 0 h.table.regions.length none = some i := by
    intro i hi
    have hmem := getElem_mem hi
    have hsize := (hok.region _ (hok.given_mem hmem)).size_pos
    rw [h.table.getElem_base hi]
    exact (resolve_some (hall _ i 0 ⟨_, List.getElem?_eq_getElem hi, hlive _ hmem, hsize, rfl⟩)).1
  rw [Table.Ascending, ← isChain_iff_pairwise, isChain_iff_getElem]
  intro i hi
  rw [length_map] at hi
  have hle := le_of_bisect (Nat.zero_le i) hi (by simp) (by simp) (hfind i (by omega)) (hfind (i + 1) hi)
  simp only [h.table.getElem_base hi, h.table.getElem_base (show i < h.table.regions.length by omega)] at hle
  have hb := (hok.region _ (hok.given_mem (getElem_mem (show i < h.table.regions.length by omega)))).bounds
  have hb' := (hok.region _ (hok.given_mem (getElem_mem hi))).bounds
  simp only [Region.given, Region.reach] at hb hb'
  simp only [getElem_map]
  by_contra hgt
  have := Nat.mul_le_mul_right (2 ^ 48) (Nat.succ_le_of_lt (Nat.not_le.mp hgt))
  omega

theorem History.Ok.resolve_gap (hok : h.Ok) {r : Region} (hr : r ∈ h.log) {k : ℕ} (hk : k < gapAfter r.size) :
    h.table.resolve (r.base + r.size + k) = none := by
  rw [← not_isSome_iff_eq_none]
  intro hsome
  obtain ⟨⟨i, off⟩, hresolve⟩ := Option.isSome_iff_exists.mp hsome
  obtain ⟨-, r', hi, -, hoff, haddr⟩ := resolve_some hresolve
  have hmem := hok.given_mem (mem_of_getElem? hi)
  have heq : r = r'.given := hok.unique hr hmem (show r.base ≤ r.base + r.size + k by omega)
    (by simp only [Region.reach]; omega) (by simp only [Region.given]; omega)
    (by simp only [Region.given, Region.reach]; omega)
  rw [heq] at haddr
  simp only [Region.given] at haddr
  omega

variable {r : Region}

def Dead (h : History) (r : Region) : Prop := ∀ r' ∈ h.table.regions, r'.live = true → r'.base ≠ r.base

theorem Dead.resolve (hdead : Dead h r) (hok : h.Ok) (hr : r ∈ h.log) {k : ℕ} (hk : k < r.size) :
    h.table.resolve (r.base + k) = none := by
  rw [← not_isSome_iff_eq_none]
  intro hsome
  obtain ⟨⟨i, off⟩, hresolve⟩ := Option.isSome_iff_exists.mp hsome
  obtain ⟨-, r', hi, hlive, hoff, haddr⟩ := resolve_some hresolve
  have hmem := mem_of_getElem? hi
  have heq : r = r'.given := hok.unique hr (hok.given_mem hmem) (show r.base ≤ r.base + k by omega)
    (by simp only [Region.reach]; omega) (by simp only [Region.given]; omega)
    (by simp only [Region.given, Region.reach]; omega)
  exact hdead r' hmem hlive (by rw [heq]; rfl)

theorem live_of_modify {regions : List Region} {i : ℕ} {r : Region}
    (hr : r ∈ regions.modify i fun r => { r with live := false }) (hlive : r.live = true) :
    ∃ j, j ≠ i ∧ regions[j]? = some r := by
  obtain ⟨j, hj⟩ := mem_iff_getElem?.mp hr
  rw [List.getElem?_modify] at hj
  obtain ⟨r', hr', heq⟩ := Option.map_eq_some_iff.mp hj
  split at heq
  · rw [← heq] at hlive
    cases hlive
  next hne =>
    obtain rfl : r' = r := heq
    exact ⟨j, fun hij => hne hij.symm, hr'⟩

theorem dead_free (hok : h.Ok) (r : Region) : Dead (h.step (.free r.base)) r := by
  intro r' hr' hlive hbase
  cases hfree : h.table.free r.base with
  | none =>
    simp only [History.step, hfree] at hr'
    rw [Table.free] at hfree
    split at hfree
    next hnone => simpa [hbase, hlive] using List.findIdx?_eq_none_iff.mp hnone r' hr'
    · cases hfree
  | some table =>
    simp only [History.step, hfree] at hr'
    obtain ⟨i, x, hi, hx, -, rfl⟩ := Table.free_some hfree
    obtain ⟨j, hne, hj⟩ := live_of_modify hr' hlive
    -- Two places in the table with one base would be two regions that overlap.
    have hfollows := List.pairwise_iff_getElem.mp (List.pairwise_map.mp (hok.apart.sublist hok.known))
    obtain ⟨hilt, hi⟩ := List.getElem?_eq_some_iff.mp hi
    obtain ⟨hjlt, hj⟩ := List.getElem?_eq_some_iff.mp hj
    have hsize : ∀ y ∈ h.table.regions, y.base < y.given.reach := by
      intro y hy
      have := (hok.region _ (hok.given_mem hy)).size_pos
      simp only [Region.reach, Region.given] at this ⊢
      omega
    have hsx := hsize x (hi ▸ getElem_mem hilt)
    have hsr := hsize r' (hj ▸ getElem_mem hjlt)
    rcases Nat.lt_or_gt_of_ne hne with hlt | hgt
    · have := hfollows j i hjlt hilt hlt
      rw [hi, hj] at this
      simp only [Region.given] at this hsx hsr
      omega
    · have := hfollows i j hilt hjlt hgt
      rw [hi, hj] at this
      simp only [Region.given] at this hsx hsr
      omega

theorem Dead.step (hdead : Dead h r) (hok : h.Ok) (hr : r ∈ h.log) (op : Op) :
    Dead (h.step op) r ∧ r ∈ (h.step op).log := by
  cases op with
  | alloc worker size =>
    have hok' := hok.step (.alloc worker size)
    cases halloc : h.table.alloc worker size with
    | none => simpa only [History.step, halloc] using ⟨hdead, hr⟩
    | some x =>
      obtain ⟨base, table⟩ := x
      obtain ⟨-, hbase, hregions, -⟩ := Table.alloc_some halloc
      simp only [History.step, halloc] at hok' ⊢
      refine ⟨fun r' hr' hlive => ?_, mem_append_left _ hr⟩
      simp only [hregions] at hr'
      rcases List.mem_append.mp hr' with hold | hnew
      · exact hdead r' hold hlive
      obtain rfl := List.mem_singleton.mp hnew
      have hsize := (hok.region r hr).size_pos
      have hsize' := (hok'.region _ (mem_append_right _ (mem_singleton_self _))).size_pos
      have hapart := (List.pairwise_append.mp hok'.apart).2.2 r hr _ (mem_singleton_self _)
      simp only [Region.reach] at hapart hsize' ⊢
      omega
  | free base =>
    cases hfree : h.table.free base with
    | none => simpa only [History.step, hfree] using ⟨hdead, hr⟩
    | some table =>
      obtain ⟨i, x, -, -, -, rfl⟩ := Table.free_some hfree
      simp only [History.step, hfree]
      refine ⟨fun r' hr' hlive => ?_, hr⟩
      obtain ⟨j, -, hj⟩ := live_of_modify hr' hlive
      exact hdead r' (mem_of_getElem? hj) hlive
  | freeAll => exact ⟨by simp [Dead, History.step, Table.freeAll], hr⟩

theorem Dead.run (hdead : Dead h r) (hok : h.Ok) (hr : r ∈ h.log) (ops : List Op) :
    Dead (h.run ops) r ∧ r ∈ (h.run ops).log := by
  induction ops generalizing h with
  | nil => exact ⟨hdead, hr⟩
  | cons op ops ih =>
    obtain ⟨hdead', hr'⟩ := hdead.step hok hr op
    exact ih hdead' (hok.step op) hr'

theorem History.Ok.resolve_freed (hok : h.Ok) (hr : r ∈ h.log) {op : Op} (hop : op = .free r.base ∨ op = .freeAll)
    (ops : List Op) {k : ℕ} (hk : k < r.size) : (h.run (op :: ops)).table.resolve (r.base + k) = none := by
  have hdead : Dead (h.step op) r ∧ r ∈ (h.step op).log := by
    rcases hop with rfl | rfl
    · refine ⟨dead_free hok r, ?_⟩
      cases hfree : h.table.free r.base <;> simpa only [History.step, hfree] using hr
    · exact ⟨by simp [Dead, History.step, Table.freeAll], hr⟩
  obtain ⟨hdead', hr'⟩ := hdead.1.run (hok.step op) hdead.2 ops
  exact hdead'.resolve ((hok.step op).run ops) hr' hk

end

/-- What resolves is a live byte, and every live byte resolves when the workers in the table do not go down. With live
regions only, it resolves in no other case. -/
theorem handles_name_live (capacity : ℕ) (ops : List Op) :
    let h := (History.init capacity).run ops
    (∀ a i off, h.table.resolve a = some (i, off) → Names h.table a i off) ∧
    (h.table.Ascending → ∀ a i off, h.table.resolve a = some (i, off) ↔ Names h.table a i off) ∧
    ((∀ r ∈ h.table.regions, r.live = true) →
      ((∀ a i off, h.table.resolve a = some (i, off) ↔ Names h.table a i off) ↔ h.table.Ascending)) ∧
    (h.log.Pairwise fun r r' => r.base + r.size ≤ r'.base ∨ r'.base + r'.size ≤ r.base) ∧
    (∀ r ∈ h.log, ∀ k < max r.size minGap, h.table.resolve (r.base + r.size + k) = none) ∧
    ∀ r ∈ h.log, ∀ op, op = .free r.base ∨ op = .freeAll → ∀ ops' k, k < r.size →
      (h.run (op :: ops')).table.resolve (r.base + k) = none := by
  intro h
  have hok : h.Ok := (History.init_ok capacity).run ops
  have hiff : h.table.Ascending → ∀ a i off, h.table.resolve a = some (i, off) ↔ Names h.table a i off :=
    fun hasc a i off => ⟨fun hresolve => (resolve_some hresolve).2, hok.resolve hasc⟩
  refine ⟨fun a i off hresolve => (resolve_some hresolve).2, hiff, fun hlive => ⟨fun hall => ?_, hiff⟩, ?_, ?_, ?_⟩
  · exact hok.ascending hlive fun a i off => (hall a i off).mpr
  · refine hok.apart.imp fun {r r'} hapart => ?_
    simp only [Region.reach] at hapart
    omega
  · intro r hr k hk
    refine hok.resolve_gap hr (hk.trans_le ?_)
    unfold gapAfter
    split_ifs <;> omega
  · exact fun r hr op hop ops' k hk => hok.resolve_freed hr hop ops' hk

/-- The region of worker 2 comes first in the table, and the search for its base ends at the region of worker 1. -/
theorem handles_lost_of_descending :
    Names ((History.init 2).run [.alloc 2 16, .alloc 1 16]).table (remoteAddr 2 minGap) 0 0 ∧
      ((History.init 2).run [.alloc 2 16, .alloc 1 16]).table.resolve (remoteAddr 2 minGap) = none :=
  ⟨⟨⟨remoteAddr 2 minGap, 16, 2, true⟩, by decide, rfl, by decide, rfl⟩, by decide⟩

end Vx.Remote
