import Vx.Names.Model

namespace Vx.Names

open List
open Lib (OrderedSet)
open Lib.TaggedKey (Text)

section

def Blind (name : Text) (p : Program) : Prop := name ∉ declaredNames p ∧ name ∉ p.externs

inductive Sees (programs : List Program) (name : Text) : Text → Text → Prop
  | own {p : Program} (hp : p ∈ programs) (h : name ∈ declaredNames p) :
    Sees programs name p.modulePath p.modulePath
  | through {p : Program} (hp : p ∈ programs) (hblind : Blind name p) {path : List Text} (hpath : path ∈ p.imports)
    {d : Text} (h : Sees programs name (moduleName path) d) : Sees programs name p.modulePath d

def Looks (programs : List Program) (name : Text) (m m' : Text) : Prop :=
  ∃ p ∈ programs, p.modulePath = m ∧ Blind name p ∧
    ∃ path ∈ p.imports, moduleName path = m' ∧ ∃ q ∈ programs, q.modulePath = m'

def Acyclic (programs : List Program) (name : Text) : Prop := ∀ m, ¬ Relation.TransGen (Looks programs name) m m

variable {programs programs' : List Program} {name : Text} {d m : Text}

theorem Sees.declares (h : Sees programs name m d) : ∃ p ∈ programs, p.modulePath = d ∧ name ∈ declaredNames p := by
  induction h with
  | own hp h => exact ⟨_, hp, rfl, h⟩
  | through _ _ _ _ ih => exact ih

theorem Sees.module (h : Sees programs name m d) : ∃ p ∈ programs, p.modulePath = m := by
  cases h with
  | own hp _ => exact ⟨_, hp, rfl⟩
  | through hp _ _ _ => exact ⟨_, hp, rfl⟩

theorem Sees.of_subset (hsub : ∀ p ∈ programs, p ∈ programs') (h : Sees programs name m d) :
    Sees programs' name m d := by
  induction h with
  | own hp h => exact .own (hsub _ hp) h
  | through hp hblind hpath _ ih => exact .through (hsub _ hp) hblind hpath ih

end

variable {programs : List Program} {name : Text} (hdistinct : (programs.map Program.modulePath).Nodup)
  {m : Text} {p : Program}

theorem byName_some (h : byName programs m = some p) : p ∈ programs ∧ p.modulePath = m := by
  refine ⟨List.mem_reverse.mp (mem_of_find?_eq_some h), ?_⟩
  simpa using List.find?_some h

theorem byName_isSome : (byName programs m).isSome ↔ ∃ p ∈ programs, p.modulePath = m := by
  simp [byName]

include hdistinct in
theorem eq_of_modulePath {q : Program} (hp : p ∈ programs) (hq : q ∈ programs) (h : p.modulePath = q.modulePath) :
    p = q := inj_on_of_nodup_map hdistinct hp hq h

include hdistinct in
theorem sees_own (hp : p ∈ programs) (h : name ∈ declaredNames p) {d : Text} :
    Sees programs name p.modulePath d ↔ d = p.modulePath := by
  constructor
  · intro hsees
    generalize hm : p.modulePath = m at hsees
    cases hsees with
    | own _ _ => rfl
    | through hq hblind _ _ =>
      rw [← eq_of_modulePath hdistinct hp hq hm] at hblind
      exact absurd h hblind.1
  · rintro rfl
    exact .own hp h

include hdistinct in
theorem sees_through (hp : p ∈ programs) (h : name ∉ declaredNames p) {d : Text} : Sees programs name p.modulePath d ↔
      name ∉ p.externs ∧ ∃ path ∈ p.imports, Sees programs name (moduleName path) d := by
  constructor
  · intro hsees
    generalize hm : p.modulePath = m at hsees
    cases hsees with
    | own hq hdeclared =>
      rw [← eq_of_modulePath hdistinct hp hq hm] at hdeclared
      exact absurd hdeclared h
    | through hq hblind hpath hsees =>
      rw [← eq_of_modulePath hdistinct hp hq hm] at hblind hpath
      exact ⟨hblind.2, _, hpath, hsees⟩
  · rintro ⟨hexterns, path, hpath, hsees⟩
    exact .through hp ⟨h, hexterns⟩ hpath hsees

def Right (programs : List Program) (name m : Text) (s : OrderedSet Text) : Prop :=
  ∀ d, d ∈ s ↔ Sees programs name m d

def MemoRight (programs : List Program) (name : Text) (memo : Memo) : Prop :=
  ∀ entry ∈ memo, Right programs name entry.1 entry.2

variable {memo : Memo}

theorem MemoRight.lookup (h : MemoRight programs name memo) {s : OrderedSet Text}
    (hs : memo.lookup m = some s) : Right programs name m s := by
  induction memo with
  | nil => cases hs
  | cons entry memo ih =>
    obtain ⟨m', s'⟩ := entry
    rw [lookup_cons] at hs
    split at hs
    next heq =>
      cases hs
      rw [beq_iff_eq.mp heq]
      exact h _ mem_cons_self
    next => exact ih (fun entry hentry => h entry (mem_cons_of_mem _ hentry)) hs

theorem seesImports_right {step : Memo → Text → OrderedSet Text × Memo} {paths : List (List Text)}
    (hstep : ∀ path ∈ paths, (∃ q ∈ programs, q.modulePath = moduleName path) → ∀ memo, MemoRight programs name memo →
      Right programs name (moduleName path) (step memo (moduleName path)).1 ∧
        MemoRight programs name (step memo (moduleName path)).2)
    (out : OrderedSet Text) (hmemo : MemoRight programs name memo) :
    (∀ d, d ∈ (seesImports programs step paths out memo).1 ↔
      d ∈ out ∨ ∃ path ∈ paths, Sees programs name (moduleName path) d) ∧
      MemoRight programs name (seesImports programs step paths out memo).2 := by
  induction paths generalizing out memo with
  | nil => exact ⟨by simp [seesImports], hmemo⟩
  | cons path paths ih =>
    have hlater := fun path' hpath' => hstep path' (mem_cons_of_mem path hpath')
    rw [seesImports]
    split_ifs with hknown
    · obtain ⟨hright, hmemo'⟩ := hstep path mem_cons_self (byName_isSome.mp hknown) memo hmemo
      obtain ⟨hmem, hmemo''⟩ := ih hlater (out.extend (step memo (moduleName path)).1) hmemo'
      refine ⟨fun d => ?_, hmemo''⟩
      rw [hmem, OrderedSet.mem_extend, hright]
      simp [or_assoc]
    · obtain ⟨hmem, hmemo'⟩ := ih hlater out hmemo
      refine ⟨fun d => ?_, hmemo'⟩
      have hnone : ¬ Sees programs name (moduleName path) d := fun hsees => hknown (byName_isSome.mpr hsees.module)
      rw [hmem]
      simp [hnone]

include hdistinct in
theorem sees_right (hacyclic : Acyclic programs name) {fuel : ℕ} {visiting : List Text}
    (hmemo : MemoRight programs name memo) (hvisiting : ∀ v ∈ visiting, Relation.TransGen (Looks programs name) v m)
    (hnodup : visiting.Nodup) (hmodules : ∀ v ∈ visiting, v ∈ programs.map Program.modulePath)
    (hfuel : programs.length < fuel + visiting.length) :
    Right programs name m (sees programs name fuel visiting memo m).1 ∧
      MemoRight programs name (sees programs name fuel visiting memo m).2 := by
  induction fuel generalizing visiting memo m with
  | zero =>
    have hlength := (subperm_of_subset hnodup hmodules).length_le
    rw [length_map] at hlength
    omega
  | succ fuel ih =>
    rw [sees]
    cases hlookup : memo.lookup m with
    | some done => exact ⟨hmemo.lookup hlookup, hmemo⟩
    | none =>
      cases hp : byName programs m with
      | none =>
        refine ⟨fun d => ?_, hmemo⟩
        have hnone : ¬ Sees programs name m d := fun hsees => by
          simpa [hp] using byName_isSome.mpr hsees.module
        simp [hnone]
      | some p =>
        obtain ⟨hmem, rfl⟩ := byName_some hp
        have hnew : p.modulePath ∉ visiting := fun hin => hacyclic _ (hvisiting _ hin)
        have hout : Right programs name p.modulePath
              (if name ∈ declaredNames p then (OrderedSet.singleton p.modulePath, memo)
              else if name ∈ p.externs then (OrderedSet.empty, memo)
              else seesImports programs (sees programs name fuel (p.modulePath :: visiting)) p.imports
                OrderedSet.empty memo).1 ∧
            MemoRight programs name (if name ∈ declaredNames p then (OrderedSet.singleton p.modulePath, memo)
              else if name ∈ p.externs then (OrderedSet.empty, memo)
              else seesImports programs (sees programs name fuel (p.modulePath :: visiting)) p.imports
                OrderedSet.empty memo).2 := by
          split_ifs with hdeclared hlist
          · exact ⟨fun d => by rw [OrderedSet.mem_singleton, sees_own hdistinct hmem hdeclared], hmemo⟩
          · exact ⟨fun d => by rw [sees_through hdistinct hmem hdeclared]; simp [hlist], hmemo⟩
          · have himports : ∀ path ∈ p.imports, (∃ q ∈ programs, q.modulePath = moduleName path) →
                ∀ memo, MemoRight programs name memo → Right programs name (moduleName path)
                    (sees programs name fuel (p.modulePath :: visiting) memo (moduleName path)).1 ∧
                  MemoRight programs name
                    (sees programs name fuel (p.modulePath :: visiting) memo (moduleName path)).2 := by
              intro path hpath hq memo' hmemo'
              have hlooks : Looks programs name p.modulePath (moduleName path) :=
                ⟨p, hmem, rfl, ⟨hdeclared, hlist⟩, path, hpath, rfl, hq⟩
              apply ih hmemo'
              · intro v hv
                rcases List.mem_cons.mp hv with rfl | hv
                · exact Relation.TransGen.single hlooks
                · exact (hvisiting v hv).tail hlooks
              · exact List.nodup_cons.mpr ⟨hnew, hnodup⟩
              · intro v hv
                rcases List.mem_cons.mp hv with rfl | hv
                · exact mem_map_of_mem hmem
                · exact hmodules v hv
              · rw [length_cons]
                omega
            obtain ⟨hseen, hmemo'⟩ := seesImports_right himports OrderedSet.empty hmemo
            refine ⟨fun d => ?_, hmemo'⟩
            rw [hseen, sees_through hdistinct hmem hdeclared]
            simp [hlist]
        dsimp only
        rw [if_neg hnew]
        refine ⟨hout.1, fun entry hentry => ?_⟩
        rcases List.mem_cons.mp hentry with rfl | hentry
        · exact hout.1
        · exact hout.2 entry hentry

end Vx.Names
