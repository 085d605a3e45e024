import Vx.Interface.Registry

namespace Vx.Interface

open List Option AList
open Pipeline (TypeId)

/-- A table of names with the names that came from an interface and the names that two interfaces bind to
different values. -/
structure NameTable (K V : Type) where
  dst : Table K V
  imported : Finset K
  poisoned : Finset K

section
variable {K V : Type} [DecidableEq K] [BEq V]

def mergeImportedEntry (t : NameTable K V) (entry : K × V) : NameTable K V :=
  let (k, v) := entry
  if k ∈ t.poisoned then t
  else
    match t.dst.lookup k with
    | some existing =>
      if k ∉ t.imported then t
      else if existing != v then ⟨t.dst.erase k, t.imported.erase k, insert k t.poisoned⟩
      else t
    | none => ⟨t.dst.insert k v, insert k t.imported, t.poisoned⟩

def mergeImportedTable (t : NameTable K V) (src : Table K V) : NameTable K V :=
  (src.entries.map fun entry => (entry.1, entry.2)).foldl mergeImportedEntry t

structure Cell (V : Type) where
  value : Option V
  isImported : Bool
  isPoisoned : Bool

namespace Cell

structure Same (c c' : Cell V) : Prop where
  value : Option.Rel (fun v w => (v == w) = true) c.value c'.value
  isImported : c.isImported = c'.isImported
  isPoisoned : c.isPoisoned = c'.isPoisoned

def offer (c : Cell V) (v : V) : Cell V :=
  if c.isPoisoned then c
  else
    match c.value with
    | some existing =>
      if c.isImported then if existing == v then c else ⟨none, false, true⟩ else c
    | none => ⟨some v, true, false⟩

end Cell

@[simp]
def NameTable.cell (t : NameTable K V) (k : K) : Cell V :=
  ⟨t.dst.lookup k, decide (k ∈ t.imported), decide (k ∈ t.poisoned)⟩

variable (t : NameTable K V)

theorem cell_mergeImportedEntry_self (k : K) (v : V) : (mergeImportedEntry t (k, v)).cell k = (t.cell k).offer v := by
  by_cases hp : k ∈ t.poisoned
  · simp [mergeImportedEntry, Cell.offer, hp]
  simp only [mergeImportedEntry, Cell.offer, NameTable.cell, hp, if_false, decide_false, Bool.false_eq_true]
  cases hl : t.dst.lookup k with
  | none => simp [hp]
  | some existing =>
    by_cases hi : k ∈ t.imported <;> cases he : existing == v <;> simp [hp, hl, hi, he, bne]

theorem cell_mergeImportedEntry_of_ne (entry : K × V) (k : K) (h : k ≠ entry.1) :
    (mergeImportedEntry t entry).cell k = t.cell k := by
  obtain ⟨k', v⟩ := entry
  unfold mergeImportedEntry
  dsimp only at h ⊢
  split
  · rfl
  split
  · split
    · rfl
    · split
      · simp [lookup_erase_ne h, h]
      · rfl
  · simp [lookup_insert_ne h, h]

theorem cell_foldl_of_notMem (entries : List (K × V)) (t : NameTable K V) (k : K)
    (h : k ∉ entries.map Prod.fst) : (entries.foldl mergeImportedEntry t).cell k = t.cell k := by
  induction entries generalizing t with
  | nil => rfl
  | cons entry entries ih =>
    simp only [map_cons, mem_cons, not_or] at h
    rw [foldl_cons, ih _ h.2, cell_mergeImportedEntry_of_ne t entry k h.1]

theorem cell_foldl_of_mem (entries : List (K × V)) (t : NameTable K V) (k : K) (v : V)
    (hnodup : (entries.map Prod.fst).Nodup) (h : (k, v) ∈ entries) :
    (entries.foldl mergeImportedEntry t).cell k = (t.cell k).offer v := by
  induction entries generalizing t with
  | nil => cases h
  | cons entry entries ih =>
    rw [map_cons, nodup_cons] at hnodup
    rw [foldl_cons]
    rcases List.mem_cons.mp h with rfl | h
    · rw [cell_foldl_of_notMem entries _ k hnodup.1, cell_mergeImportedEntry_self]
    have hne : k ≠ entry.1 := by
      rintro rfl
      exact hnodup.1 (List.mem_map.mpr ⟨_, h, rfl⟩)
    rw [ih _ hnodup.2 h, cell_mergeImportedEntry_of_ne t entry k hne]

theorem cell_mergeImportedTable (src : Table K V) (k : K) :
    (mergeImportedTable t src).cell k = (src.lookup k).elim (t.cell k) (t.cell k).offer := by
  have hkeys : (src.entries.map fun entry => (entry.1, entry.2)).map Prod.fst = src.keys := by
    simp [AList.keys, List.keys, Function.comp_def]
  cases hl : src.lookup k with
  | none =>
    refine cell_foldl_of_notMem _ t k ?_
    rw [hkeys]
    exact AList.lookup_eq_none.mp hl
  | some v =>
    refine cell_foldl_of_mem _ t k v ?_ ?_
    · rw [hkeys]
      exact src.nodupKeys
    · exact List.mem_map.mpr ⟨⟨k, v⟩, AList.mem_lookup_iff.mp hl, rfl⟩

def mergeImportedTables (t : NameTable K V) (srcs : List (Table K V)) : NameTable K V :=
  srcs.foldl mergeImportedTable t

def offers (srcs : List (Table K V)) (k : K) : List V :=
  srcs.filterMap fun src => src.lookup k

variable (srcs : List (Table K V))

theorem cell_mergeImportedTables (k : K) :
    (mergeImportedTables t srcs).cell k = (offers srcs k).foldl Cell.offer (t.cell k) := by
  induction srcs generalizing t with
  | nil => rfl
  | cons src srcs ih =>
    change (mergeImportedTables (mergeImportedTable t src) srcs).cell k = _
    rw [ih, cell_mergeImportedTable]
    cases hl : src.lookup k <;> simp [offers, hl]

namespace Cell

variable {c : Cell V}

theorem offer_of_settled {v : V} (hvalue : c.value = some v) (himported : c.isImported = false)
    (w : V) : c.offer w = c := by
  simp [offer, hvalue, himported]

theorem foldl_offer_of_settled {v : V} (hvalue : c.value = some v)
    (himported : c.isImported = false) (ws : List V) : ws.foldl offer c = c := by
  induction ws with
  | nil => rfl
  | cons w ws ih => rw [foldl_cons, offer_of_settled hvalue himported, ih]

theorem foldl_offer_of_poisoned (h : c.isPoisoned = true) (ws : List V) : ws.foldl offer c = c := by
  induction ws with
  | nil => rfl
  | cons w ws ih => rw [foldl_cons, show c.offer w = c by simp [offer, h], ih]

theorem foldl_offer_imported (v : V) (ws : List V) : ws.foldl offer ⟨some v, true, false⟩ =
      if ws.all fun w => v == w then ⟨some v, true, false⟩ else ⟨none, false, true⟩ := by
  induction ws with
  | nil => rfl
  | cons w ws ih =>
    cases hw : v == w with
    | true => simp [offer, hw, ih]
    | false =>
      have hpoisoned : offer ⟨some v, true, false⟩ w = ⟨none, false, true⟩ := by simp [offer, hw]
      rw [foldl_cons, hpoisoned, foldl_offer_of_poisoned rfl]
      simp [hw]

variable [EquivBEq V]

theorem Same.rfl : c.Same c := ⟨by cases c.value <;> constructor; exact BEq.rfl, Eq.refl _, Eq.refl _⟩

variable {c' : Cell V}

theorem Same.trans {c'' : Cell V} (h : c.Same c') (h' : c'.Same c'') : c.Same c'' := by
  obtain ⟨v, i, p⟩ := c
  obtain ⟨v', i', p'⟩ := c'
  obtain ⟨v'', i'', p''⟩ := c''
  obtain ⟨hv, rfl, rfl⟩ := h
  obtain ⟨hv', rfl, rfl⟩ := h'
  refine ⟨?_, Eq.refl _, Eq.refl _⟩
  cases hv with
  | none => exact hv'
  | some hv =>
    cases hv' with
    | some hv' => exact .some (BEq.trans hv hv')

theorem Same.offer (h : c.Same c') (v : V) : (c.offer v).Same (c'.offer v) := by
  obtain ⟨w, i, p⟩ := c
  obtain ⟨w', i', p'⟩ := c'
  obtain ⟨hw, rfl, rfl⟩ := h
  cases hw with
  | none => exact Same.rfl
  | @some w w' hw =>
    have heq : (w == v) = (w' == v) := BEq.congr_left hw
    have hsame : Same ⟨some w, i, p⟩ ⟨some w', i, p⟩ := ⟨.some hw, Eq.refl _, Eq.refl _⟩
    cases p <;> cases i <;> cases hv : w' == v <;> simp [Cell.offer, heq, hv, hsame, Same.rfl]

theorem Same.foldl_offer (h : c.Same c') (vs : List V) : (vs.foldl Cell.offer c).Same (vs.foldl Cell.offer c') := by
  induction vs generalizing c c' with
  | nil => exact h
  | cons v vs ih => exact ih (h.offer v)

theorem offer_swap (c : Cell V) (v w : V) : ((c.offer v).offer w).Same ((c.offer w).offer v) := by
  obtain ⟨u, i, p⟩ := c
  have hcomm : (v == w) = (w == v) := BEq.comm
  cases p with
  | true => simp [offer, Same.rfl]
  | false =>
    cases u with
    | none =>
      cases hvw : w == v with
      | true => simpa [offer, hcomm, hvw] using ⟨.some (hcomm.trans hvw), Eq.refl _, Eq.refl _⟩
      | false => simp [offer, hcomm, hvw, Same.rfl]
    | some u =>
      cases i <;> cases huv : u == v <;> cases huw : u == w <;> simp [offer, huv, huw, Same.rfl]

theorem foldl_offer_perm {vs ws : List V} (h : vs.Perm ws) (c : Cell V) :
    (vs.foldl offer c).Same (ws.foldl offer c) := by
  induction h generalizing c with
  | nil => exact Same.rfl
  | cons v _ ih => exact ih (c.offer v)
  | swap v w vs => exact (offer_swap c w v).foldl_offer vs
  | trans _ _ ih ih' => exact (ih c).trans (ih' c)

end Cell

def Agree (srcs : List (Table K V)) (k : K) : Prop :=
  ∀ src ∈ srcs, ∀ src' ∈ srcs, ∀ v v', src.lookup k = some v → src'.lookup k = some v' → (v == v') = true

omit [BEq V] in
theorem mem_offers {srcs : List (Table K V)} {k : K} {v : V} :
    v ∈ offers srcs k ↔ ∃ src ∈ srcs, src.lookup k = some v := by
  simp [offers, mem_filterMap]

theorem agree_iff (k : K) : Agree srcs k ↔ ∀ v ∈ offers srcs k, ∀ v' ∈ offers srcs k, (v == v') = true := by
  simp only [mem_offers]
  constructor
  · rintro h v ⟨src, hsrc, hv⟩ v' ⟨src', hsrc', hv'⟩
    exact h src hsrc src' hsrc' v v' hv hv'
  · rintro h src hsrc src' hsrc' v v' hv hv'
    exact h v ⟨src, hsrc, hv⟩ v' ⟨src', hsrc', hv'⟩

theorem cell_of_free (k : K) (hfree : t.dst.lookup k = none) (hclean : k ∉ t.poisoned) :
    (mergeImportedTables t srcs).cell k = match offers srcs k with
      | [] => t.cell k
      | v :: vs => if vs.all fun w => v == w then ⟨some v, true, false⟩ else ⟨none, false, true⟩ := by
  rw [cell_mergeImportedTables]
  cases offers srcs k with
  | nil => rfl
  | cons v vs =>
    have hfirst : (t.cell k).offer v = ⟨some v, true, false⟩ := by
      simp [Cell.offer, hfree, hclean]
    rw [foldl_cons, hfirst, Cell.foldl_offer_imported]

variable [EquivBEq V]

theorem offers_agree_iff (v : V) (vs : List V) :
    (∀ u ∈ v :: vs, ∀ w ∈ v :: vs, (u == w) = true) ↔ vs.all (fun w => v == w) = true := by
  rw [List.all_eq_true]
  constructor
  · intro h w hw
    exact h v (by simp) w (mem_cons_of_mem _ hw)
  intro h
  have hv : ∀ w ∈ v :: vs, (v == w) = true := by
    simpa using h
  exact fun u hu w hw => BEq.trans (BEq.symm (hv u hu)) (hv w hw)

structure OrderFree (before : NameTable K V) (srcs : List (Table K V)) (after after' : NameTable K V) : Prop where
  same : ∀ k, (after.cell k).Same (after'.cell k)
  own : ∀ k v, before.dst.lookup k = some v → k ∉ before.imported → after.dst.lookup k = some v
  resolves : ∀ k, before.dst.lookup k = none → k ∉ before.poisoned →
    ((after.dst.lookup k).isSome = true ↔ (∃ src ∈ srcs, k ∈ src) ∧ Agree srcs k)
  meaning : ∀ k v, before.dst.lookup k = none → k ∉ before.poisoned → after.dst.lookup k = some v →
    ∃ src ∈ srcs, src.lookup k = some v
  poisoned : ∀ k, before.dst.lookup k = none → k ∉ before.poisoned → (k ∈ after.poisoned ↔ ¬ Agree srcs k)

theorem mergeImportedTables_orderFree {srcs srcs' : List (Table K V)} (h : srcs.Perm srcs') :
    OrderFree t srcs (mergeImportedTables t srcs) (mergeImportedTables t srcs') where
  same k := by
    rw [cell_mergeImportedTables, cell_mergeImportedTables]
    exact Cell.foldl_offer_perm (h.filterMap _) _
  own k v hv himported := by
    have hcell := cell_mergeImportedTables t srcs k
    rw [Cell.foldl_offer_of_settled hv (by simpa using himported)] at hcell
    exact (congrArg Cell.value hcell).trans hv
  resolves k hfree hclean := by
    have hvalue := congrArg Cell.value (cell_of_free t srcs k hfree hclean)
    change (mergeImportedTables t srcs).dst.lookup k = _ at hvalue
    have hsome : (∃ src ∈ srcs, k ∈ src) ↔ ∃ v, v ∈ offers srcs k := by
      simp only [mem_offers, ← lookup_isSome, isSome_iff_exists]
      exact ⟨fun ⟨src, h, v, hv⟩ => ⟨v, src, h, hv⟩, fun ⟨v, src, h, hv⟩ => ⟨src, h, v, hv⟩⟩
    rw [hvalue, hsome, agree_iff]
    cases offers srcs k with
    | nil => simp [hfree]
    | cons v vs =>
      rw [offers_agree_iff]
      dsimp only
      split <;> simp_all
  meaning k v hfree hclean hv := by
    have hvalue := congrArg Cell.value (cell_of_free t srcs k hfree hclean)
    change (mergeImportedTables t srcs).dst.lookup k = _ at hvalue
    rw [hv] at hvalue
    rw [← mem_offers]
    cases hoffers : offers srcs k with
    | nil => simp [hoffers, hfree] at hvalue
    | cons w ws =>
      rw [hoffers] at hvalue
      dsimp only at hvalue
      split at hvalue <;> simp_all
  poisoned k hfree hclean := by
    have hpoisoned := congrArg Cell.isPoisoned (cell_of_free t srcs k hfree hclean)
    change decide _ = _ at hpoisoned
    rw [← decide_eq_true_iff (p := k ∈ _), hpoisoned, agree_iff]
    cases offers srcs k with
    | nil => simp [hclean]
    | cons v vs =>
      rw [offers_agree_iff]
      dsimp only
      split <;> simp_all

end

variable {E : Type} [DecidableEq E]

namespace Registry

def fnNames (reg : Registry E) : NameTable String (FnSig E) :=
  ⟨reg.fnSigs, reg.mergeState.importedFns, reg.mergeState.poisonedFns⟩

def methodNames (reg : Registry E) : NameTable (TypeId × String) (FnSig E) :=
  ⟨reg.methods, reg.mergeState.importedMethods, reg.mergeState.poisonedMethods⟩

def enumNames (reg : Registry E) : NameTable String (List String) :=
  ⟨reg.enumVariants, reg.mergeState.importedEnums, reg.mergeState.poisonedEnums⟩

def mergeFrom (self other : Registry E) : Registry E :=
  let layouts := other.layouts.table.entries.foldl (fun layouts entry => layouts.orInsert entry.2) self.layouts
  let fns := mergeImportedTable self.fnNames other.fnSigs
  let methods := mergeImportedTable self.methodNames other.methods
  let enums := mergeImportedTable self.enumNames other.enumVariants
  { self with
    layouts
    layoutByBaseName := .build layouts
    aggregateIdentities := .fromLayouts layouts
    moduleIndices := other.moduleIndices.entries.foldl (fun indices entry =>
      let dst := (indices.lookup entry.1).getD ∅
      indices.insert entry.1 (entry.2.entries.foldl (fun dst named => orInsert dst named.1 named.2) dst))
      self.moduleIndices
    fnSigs := fns.dst
    methods := methods.dst
    bodies := other.bodies.entries.foldl (fun bodies entry => orInsert bodies entry.1 entry.2) self.bodies
    enumVariants := enums.dst
    structs := other.structs.entries.foldl (fun structs entry => orInsert structs entry.1 entry.2) self.structs
    mergeState :=
      { importedFns := fns.imported, poisonedFns := fns.poisoned
        importedMethods := methods.imported, poisonedMethods := methods.poisoned
        importedEnums := enums.imported, poisonedEnums := enums.poisoned } }

def mergeAll (own : Registry E) (artifacts : List (Registry E)) : Registry E :=
  artifacts.foldl mergeFrom own

theorem fnNames_mergeAll (own : Registry E) (artifacts : List (Registry E)) :
    (own.mergeAll artifacts).fnNames = mergeImportedTables own.fnNames (artifacts.map fnSigs) := by
  induction artifacts generalizing own with
  | nil => rfl
  | cons artifact artifacts ih => exact ih (own.mergeFrom artifact)

theorem methodNames_mergeAll (own : Registry E) (artifacts : List (Registry E)) :
    (own.mergeAll artifacts).methodNames = mergeImportedTables own.methodNames (artifacts.map methods) := by
  induction artifacts generalizing own with
  | nil => rfl
  | cons artifact artifacts ih => exact ih (own.mergeFrom artifact)

theorem enumNames_mergeAll (own : Registry E) (artifacts : List (Registry E)) :
    (own.mergeAll artifacts).enumNames = mergeImportedTables own.enumNames (artifacts.map enumVariants) := by
  induction artifacts generalizing own with
  | nil => rfl
  | cons artifact artifacts ih => exact ih (own.mergeFrom artifact)

/-- The order in which the artifacts are merged does not matter for the tables of names. -/
theorem mergeAll_orderFree (own : Registry E) (artifacts artifacts' : List (Registry E))
    (h : artifacts.Perm artifacts') :
    OrderFree own.fnNames (artifacts.map fnSigs) (own.mergeAll artifacts).fnNames
        (own.mergeAll artifacts').fnNames ∧
      OrderFree own.methodNames (artifacts.map methods) (own.mergeAll artifacts).methodNames
        (own.mergeAll artifacts').methodNames ∧
      OrderFree own.enumNames (artifacts.map enumVariants) (own.mergeAll artifacts).enumNames
        (own.mergeAll artifacts').enumNames := by
  simp only [fnNames_mergeAll, methodNames_mergeAll, enumNames_mergeAll]
  exact ⟨mergeImportedTables_orderFree _ (h.map _), mergeImportedTables_orderFree _ (h.map _),
    mergeImportedTables_orderFree _ (h.map _)⟩

def ofEnum (name : String) (variants : List String) : Registry E :=
  { empty with enumVariants := AList.singleton name variants }

/-- Two artifacts bind `Color` to different variants, and the name resolves after neither order. -/
theorem mergeAll_orderFree_color :
    let own : Registry Unit := empty
    let red : Registry Unit := ofEnum "Color" ["Red"]
    let blue : Registry Unit := ofEnum "Color" ["Blue"]
    OrderFree own.enumNames [red.enumVariants, blue.enumVariants] (own.mergeAll [red, blue]).enumNames
        (own.mergeAll [blue, red]).enumNames ∧
      "Color" ∈ (own.mergeAll [blue, red]).mergeState.poisonedEnums := by
  intro own red blue
  exact ⟨(mergeAll_orderFree own [red, blue] [blue, red] (.swap ..)).2.2, by decide⟩

end Registry

end Vx.Interface
