import Vx.Fleet.Topology

namespace Vx.Fleet

open List Option
open Lib.CText Lib.MachineInt

section

theorem digitValue_bytes {c : Char} {d : ℕ} (h : digitValue c = some d) :
    ∃ b, String.utf8EncodeChar c = [b] ∧ isDigit b = true ∧ b.toNat - 48 = d := by
  unfold digitValue at h
  split at h
  case isTrue hc =>
    cases h
    have hlow : 48 ≤ c.toNat := hc.1
    have hhigh : c.toNat ≤ 57 := hc.2
    have hnat : (UInt8.ofNat c.toNat).toNat = c.toNat := by
      rw [UInt8.toNat_ofNat']
      omega
    refine ⟨UInt8.ofNat c.toNat, utf8EncodeChar_ascii (by omega), ?_, by rw [hnat]; rfl⟩
    have h48 : (48 : UInt8).toNat = 48 := rfl
    have h57 : (57 : UInt8).toNat = 57 := rfl
    simp only [isDigit, Bool.and_eq_true, decide_eq_true_eq, UInt8.le_iff_toNat_le]
    omega
  case isFalse => cases h

variable {n : ℕ}

theorem digitsValue_bytes {cs : List Char} {acc : ℕ} (h : digitsValue acc cs = some n) :
    (∀ b ∈ cs.flatMap String.utf8EncodeChar, isDigit b = true) ∧
      (cs.flatMap String.utf8EncodeChar).foldl (fun n b => 10 * n + (b.toNat - 48)) acc = n := by
  induction cs generalizing acc with
  | nil =>
    cases h
    exact ⟨by simp, rfl⟩
  | cons c cs ih =>
    simp only [digitsValue, bind_eq_bind, bind_eq_some_iff] at h
    obtain ⟨d, hd, hrest⟩ := h
    obtain ⟨b, hb, hdigit, hvalue⟩ := digitValue_bytes hd
    obtain ⟨hall, hfold⟩ := ih hrest
    rw [flatMap_cons, hb]
    refine ⟨?_, ?_⟩
    · intro b' hb'
      rcases List.mem_cons.1 hb' with rfl | hin
      · exact hdigit
      · exact hall b' hin
    · rw [singleton_append, foldl_cons, hvalue]
      exact hfold

variable {text : String}

theorem literalValue_bytes (h : literalValue text = some n) :
    utf8 text ≠ [] ∧ (∀ b ∈ utf8 text, isDigit b = true) ∧ numberOf (utf8 text) = n := by
  unfold literalValue at h
  split at h
  case isTrue => cases h
  case isFalse hne =>
    obtain ⟨hall, hfold⟩ := digitsValue_bytes h
    refine ⟨?_, hall, hfold⟩
    intro hnil
    have hempty : utf8 text = utf8 "" := hnil
    rw [utf8_injective hempty] at hne
    exact hne rfl

theorem parseI32_literal (h : literalValue text = some n) (hn : n < 2 ^ 31) : parseI32 text = some (n : ℤ) := by
  have hunsigned : parseI32.unsigned text.toList = some n := h
  have hchecked : checkedI32 (n : ℤ) = some (n : ℤ) := if_pos ⟨by omega, by omega⟩
  unfold parseI32
  split
  case h_1 digits heq =>
    rw [heq] at hunsigned
    cases hunsigned
  case h_2 digits heq =>
    rw [heq] at hunsigned
    cases hunsigned
  case h_3 =>
    rw [hunsigned, bind_some]
    exact hchecked

theorem topologyIndex_literal {ty : Option ElementType}
    (h : literalValue text = some n) (hn : n < 2 ^ 31) : topologyIndex (.number text ty) = some (n : ℤ) := by
  simp [topologyIndex, constTopologyIndex, parseI32_literal h hn]

def Declared (name : String) : Prop :=
  TopologyKind.fromName name = .custom name ∧ ∀ c ∈ name.toList, c ≠ '[' ∧ c ≠ '\x00'

variable {name : String}

theorem Declared.ne (h : Declared name) {builtin : String}
    (hb : TopologyKind.fromName builtin ≠ .custom builtin) : utf8 name ≠ utf8 builtin := by
  intro heq
  rw [utf8_injective heq] at h
  exact hb h.1

theorem Declared.not_mem (h : Declared name) : (91 : UInt8) ∉ utf8 name := by
  intro hmem
  obtain ⟨c, hc, hb⟩ := List.mem_flatMap.1 hmem
  have hcode : c.toNat = 91 := toNat_of_mem_utf8EncodeChar hb (by decide)
  exact (h.2 c hc).1 (Char.toNat_inj.1 hcode)

theorem Declared.indexedId_eq_none (h : Declared name) (base : ℤ) {head : String}
    (hhead : (91 : UInt8) ∈ utf8 head) : indexedId base head (utf8 name) = none := by
  have hscan : scanInt (utf8 head) (utf8 name) = none := by
    apply scanInt_eq_none
    intro rest heq
    apply h.not_mem
    rw [heq]
    exact mem_append_left _ hhead
  rw [indexedId, hscan, map_none]

theorem utf8_heads : utf8 "NPU[" = [78, 80, 85, 91] ∧ utf8 "AccCore[" = [65, 99, 99, 67, 111, 114, 101, 91] ∧
    utf8 "GPU[" = [71, 80, 85, 91] ∧ utf8 "]" = [93] := by
  decide

theorem bracket_mem_heads : (91 : UInt8) ∈ utf8 "NPU[" ∧ (91 : UInt8) ∈ utf8 "AccCore[" ∧ (91 : UInt8) ∈ utf8 "GPU[" := by
  decide

theorem customId_utf8 (name : String) : customId (utf8 name) = fnvDispatchId name := rfl

theorem dispatchId_declared (h : Declared name) : dispatchId (utf8 name) = fnvDispatchId name := by
  have hcpu : ¬ (utf8 name = utf8 "CPU" ∨ utf8 name = utf8 "Current") := not_or.2 ⟨h.ne (by decide), h.ne (by decide)⟩
  rw [dispatchId, if_neg hcpu, if_neg (h.ne (by decide)), if_neg (h.ne (by decide)), if_neg (h.ne (by decide)),
    if_neg (h.ne (by decide)), h.indexedId_eq_none _ bracket_mem_heads.1, h.indexedId_eq_none _ bracket_mem_heads.2.1,
    h.indexedId_eq_none _ bracket_mem_heads.2.2]
  exact customId_utf8 name

theorem utf8_indexed (head text : String) : utf8 (head ++ text ++ "]") = utf8 head ++ (utf8 text ++ [93]) := by
  rw [utf8_append, utf8_append, utf8_heads.2.2.2, append_assoc]

theorem indexedId_literal {text : String} {n : ℕ} (base : ℤ) (head : String) (h : literalValue text = some n)
    (hn : n < 2 ^ 31) : indexedId base head (utf8 head ++ (utf8 text ++ [93])) = some (toI32 (base + n)) := by
  obtain ⟨hne, hall, hnumber⟩ := literalValue_bytes h
  have hclose : ∀ b ∈ ([93] : Bytes).head?, isDigit b = false := by
    intro b hb
    cases hb
    rfl
  have hscan := scanInt_digits (utf8 head) hne hall hclose (by omega)
  rw [indexedId, hscan, hnumber, map_some]

theorem indexedId_other (base : ℤ) {head : String} {b c : UInt8} {bs cs : Bytes} (hhead : utf8 head = b :: bs)
    (hne : b ≠ c) : indexedId base head (c :: cs) = none := by
  have hscan : scanInt (utf8 head) (c :: cs) = none := by
    apply scanInt_eq_none
    intro rest heq
    rw [hhead] at heq
    exact hne (List.cons.inj heq).1.symm
  rw [indexedId, hscan, map_none]

theorem bracket_notMem_builtin :
    ∀ builtin ∈ ["CPU", "Current", "AMX", "ANE", "CpuAvx512", "CpuNeon"], (91 : UInt8) ∉ utf8 builtin := by
  decide

theorem dispatchId_bracketed {name : Bytes} (h : (91 : UInt8) ∈ name) :
    dispatchId name = ((indexedId 100 "NPU[" name).or
      ((indexedId 200 "AccCore[" name).or (indexedId 500 "GPU[" name))).getD (customId name) := by
  have hne : ∀ builtin ∈ ["CPU", "Current", "AMX", "ANE", "CpuAvx512", "CpuNeon"], name ≠ utf8 builtin := by
    rintro builtin hb rfl
    exact bracket_notMem_builtin builtin hb h
  have hcpu : ¬ (name = utf8 "CPU" ∨ name = utf8 "Current") := not_or.2 ⟨hne _ (by simp), hne _ (by simp)⟩
  rw [dispatchId, if_neg hcpu, if_neg (hne _ (by simp)), if_neg (hne _ (by simp)), if_neg (hne _ (by simp)),
    if_neg (hne _ (by simp))]

variable (h : literalValue text = some n)
include h

theorem dispatchId_npu (hn : n < 2 ^ 31) : dispatchId (utf8 ("NPU[" ++ text ++ "]")) = toI32 (100 + n) := by
  rw [utf8_indexed, dispatchId_bracketed (mem_append_left _ bracket_mem_heads.1), indexedId_literal 100 "NPU[" h hn,
    some_or, getD_some]

theorem dispatchId_accCore (hn : n < 2 ^ 31) : dispatchId (utf8 ("AccCore[" ++ text ++ "]")) = toI32 (200 + n) := by
  have hnpu : indexedId 100 "NPU[" (utf8 "AccCore[" ++ (utf8 text ++ [93])) = none :=
    indexedId_other 100 utf8_heads.1 (by decide : (78 : UInt8) ≠ 65)
  rw [utf8_indexed, dispatchId_bracketed (mem_append_left _ bracket_mem_heads.2.1), hnpu,
    indexedId_literal 200 "AccCore[" h hn, none_or, some_or, getD_some]

theorem dispatchId_gpu (hn : n < 2 ^ 31) : dispatchId (utf8 ("GPU[" ++ text ++ "]")) = toI32 (500 + n) := by
  have hnpu : indexedId 100 "NPU[" (utf8 "GPU[" ++ (utf8 text ++ [93])) = none :=
    indexedId_other 100 utf8_heads.1 (by decide : (78 : UInt8) ≠ 71)
  have hacc : indexedId 200 "AccCore[" (utf8 "GPU[" ++ (utf8 text ++ [93])) = none :=
    indexedId_other 200 utf8_heads.2.1 (by decide : (65 : UInt8) ≠ 71)
  rw [utf8_indexed, dispatchId_bracketed (mem_append_left _ bracket_mem_heads.2.2), hnpu, hacc,
    indexedId_literal 500 "GPU[" h hn, none_or, none_or, getD_some]

end

/-- The topologies a program names: the index of a device is a literal below `bound` or, where `computed` says so, an
expression of another form. -/
structure Scope where
  bound : ℕ
  computed : Bool

namespace Scope

def Admits (scope : Scope) : Expr → Prop
  | .number text _ => ∃ n, literalValue text = some n ∧ n < scope.bound
  | _ => scope.computed = true

def Has (scope : Scope) : Topology → Prop
  | .cpu | .amx | .ane | .cpuAvx512 | .cpuNeon => True
  | .npu e | .accCore e | .gpu e => scope.Admits e
  | .custom name => Declared name
  | .slice _ _ _ | .current => False

end Scope

def Topology.index : Topology → Option ℤ
  | .npu e | .accCore e | .gpu e => topologyIndex e
  | _ => some 0

def Different (t u : Topology) : Prop := t.kind ≠ u.kind ∨ t.index ≠ u.index

def Hashed : Topology → Prop
  | .slice _ _ _ | .custom _ => True
  | _ => False

structure RouteAlike (scope : Scope) : Prop where
  placed : ∀ m, Built m → ∀ name, classify (some m) (some name) (dispatchId name) =
    classify (some m) none (dispatchId name)
  numbered : ∀ t, scope.Has t → topologyDispatchId t = some (dispatchId (utf8 t.displayName))
  distinct : ∀ t u, scope.Has t → scope.Has u → ¬ Hashed t → ¬ Hashed u → Different t u →
    topologyDispatchId t ≠ topologyDispatchId u

variable {scope : Scope} (hc : scope.computed = false)
include hc

theorem Scope.Admits.literal {e : Expr} (h : scope.Admits e) :
    ∃ text ty n, e = .number text ty ∧ literalValue text = some n ∧ n < scope.bound := by
  cases e with
  | number text ty =>
    obtain ⟨n, hvalue, hn⟩ := h
    exact ⟨text, ty, n, rfl, hvalue, hn⟩
  | _ =>
    have hcomputed : scope.computed = true := h
    rw [hc] at hcomputed
    cases hcomputed

variable {t : Topology}

theorem numbered_of_literal (hb : scope.bound ≤ 2 ^ 31)
    (h : scope.Has t) : topologyDispatchId t = some (dispatchId (utf8 t.displayName)) := by
  cases t with
  | cpu | amx | ane | cpuAvx512 | cpuNeon => decide
  | npu e =>
    obtain ⟨text, ty, n, rfl, hvalue, hn⟩ := h.literal hc
    rw [topologyDispatchId, topologyIndex_literal hvalue (by omega), map_some]
    exact congrArg some (dispatchId_npu hvalue (by omega)).symm
  | accCore e =>
    obtain ⟨text, ty, n, rfl, hvalue, hn⟩ := h.literal hc
    rw [topologyDispatchId, topologyIndex_literal hvalue (by omega), map_some]
    exact congrArg some (dispatchId_accCore hvalue (by omega)).symm
  | gpu e =>
    obtain ⟨text, ty, n, rfl, hvalue, hn⟩ := h.literal hc
    rw [topologyDispatchId, topologyIndex_literal hvalue (by omega), map_some]
    exact congrArg some (dispatchId_gpu hvalue (by omega)).symm
  | custom name => exact congrArg some (dispatchId_declared h).symm
  | slice base start stop | current => cases h

def TopologyKind.band : TopologyKind → ℤ
  | .cpu => 0
  | .npu => 1
  | .accCore => 2
  | .amx => 3
  | .ane => 4
  | .gpu => 5
  | .cpuAvx512 => 6
  | .cpuNeon => 7
  | .slice => 20
  | .custom _ => 30
  | .current => 0

theorem dispatchId_in_band (hb : scope.bound ≤ 100) (h : scope.Has t) (hh : ¬ Hashed t) :
    ∃ n : ℕ, n < 100 ∧ t.index = some (n : ℤ) ∧ topologyDispatchId t = some (100 * t.kind.band + n) := by
  have hindexed : ∀ {e : Expr} (base : ℤ), 0 ≤ base → base < 2000 → scope.Admits e → ∃ n : ℕ, n < 100 ∧
      topologyIndex e = some (n : ℤ) ∧ (topologyIndex e).map (fun i => toI32 (base + i)) = some (base + n) := by
    intro e base hlow hhigh he
    obtain ⟨text, ty, n, rfl, hvalue, hn⟩ := he.literal hc
    have hindex : topologyIndex (.number text ty) = some (n : ℤ) := topologyIndex_literal hvalue (by omega)
    refine ⟨n, by omega, hindex, ?_⟩
    rw [hindex, map_some, toI32_eq (by omega) (by omega)]
  cases t with
  | cpu | amx | ane | cpuAvx512 | cpuNeon => exact ⟨0, by decide, rfl, rfl⟩
  | npu e => exact hindexed 100 (by decide) (by decide) h
  | accCore e => exact hindexed 200 (by decide) (by decide) h
  | gpu e => exact hindexed 500 (by decide) (by decide) h
  | custom name => exact absurd trivial hh
  | slice base start stop | current => cases h

omit hc in
theorem kind_eq_of_band {u : Topology} (ht : scope.Has t) (hu : scope.Has u) (hht : ¬ Hashed t)
    (hhu : ¬ Hashed u) (h : t.kind.band = u.kind.band) : t.kind = u.kind := by
  cases t <;> first | exact absurd trivial hht | exact ht.elim | skip
  all_goals
    cases u <;> first | rfl | exact absurd trivial hhu | exact hu.elim | simp [Topology.kind, TopologyKind.band] at h

theorem distinct_below (hb : scope.bound ≤ 100) {u : Topology}
    (ht : scope.Has t) (hu : scope.Has u) (hht : ¬ Hashed t) (hhu : ¬ Hashed u) (hne : Different t u) :
    topologyDispatchId t ≠ topologyDispatchId u := by
  obtain ⟨i, hi, hti, hidt⟩ := dispatchId_in_band hc hb ht hht
  obtain ⟨j, hj, huj, hidu⟩ := dispatchId_in_band hc hb hu hhu
  rw [hidt, hidu]
  intro heq
  have hsum := Option.some.inj heq
  have hband : t.kind.band = u.kind.band := by omega
  rcases hne with hkind | hindex
  · exact hkind (kind_eq_of_band ht hu hht hhu hband)
  apply hindex
  rw [hti, huj]
  congr 1
  omega

omit hc

theorem bands_overlap : topologyDispatchId (.npu (.number "100" none)) =
    topologyDispatchId (.accCore (.number "0" none)) := by
  decide

theorem computed_index_hashed : topologyDispatchId (.gpu (.identifier "i")) ≠
    some (dispatchId (utf8 (Topology.gpu (.identifier "i")).displayName)) := by
  decide

theorem route_alike_iff (scope : Scope) : RouteAlike scope ↔ scope.bound ≤ 100 ∧ scope.computed = false := by
  constructor
  · intro h
    constructor
    · by_contra hbound
      have hnpu : scope.Has (.npu (.number "100" none)) := ⟨100, by decide, by omega⟩
      have hacc : scope.Has (.accCore (.number "0" none)) := ⟨0, by decide, by omega⟩
      exact h.distinct _ _ hnpu hacc id id (.inl (by decide)) bands_overlap
    · by_contra hcomputed
      have hgpu : scope.Has (.gpu (.identifier "i")) := by simpa [Scope.Has, Scope.Admits] using hcomputed
      exact computed_index_hashed (h.numbered _ hgpu)
  · rintro ⟨hb, hc⟩
    exact {
      placed := fun m hm name => hm.classify_name name
      numbered := fun t ht => numbered_of_literal hc (by omega) ht
      distinct := fun t u ht hu hht hhu hne => distinct_below hc hb ht hu hht hhu hne }

/-- A program that places on `NPU[100]` reaches the worker that a manifest lists for `AccCore[0]`, and one that places
on `GPU[i]` asks for a number that its name does not have. -/
theorem npu_reaches_accCore_worker :
    Different (.npu (.number "100" none)) (.accCore (.number "0" none)) ∧
      topologyDispatchId (.npu (.number "100" none)) = topologyDispatchId (.accCore (.number "0" none)) ∧
      (Manifest.init.add (some (utf8 "AccCore[0]")) (some (utf8 "10.0.0.4")) 9001).map (fun m =>
        classify (some m) (some (utf8 "NPU[100]")) (dispatchId (utf8 "NPU[100]"))) =
        some (.remote, some ⟨utf8 "AccCore[0]", utf8 "10.0.0.4", 9001, 200⟩) ∧
      topologyDispatchId (.gpu (.identifier "i")) = some 500 ∧ dispatchId (utf8 "GPU[i]") ≠ 500 :=
  ⟨.inl (by decide), bands_overlap, by decide, by decide, by decide⟩

end Vx.Fleet
