import Vx.Layout.Aggregates

namespace Vx.Layout

open List Option
open Lib.Align
open Lib.Memo
open Lib.TaggedKey (Text)

section

def fieldsFrom (m : Arithmetic) : ℕ → List (Text × Info) → List FieldLayout
  | _, [] => []
  | offset, (name, info) :: rest =>
    ⟨name, m.alignUp offset info.align, info.size, info.ty⟩ ::
      fieldsFrom m (m.wrap (m.alignUp offset info.align + info.size)) rest

def endFrom (m : Arithmetic) : ℕ → List (Text × Info) → ℕ
  | offset, [] => offset
  | offset, (_, info) :: rest => endFrom m (m.wrap (m.alignUp offset info.align + info.size)) rest

def alignFrom : ℕ → List (Text × Info) → ℕ
  | align, [] => align
  | align, (_, info) :: rest => alignFrom (max align info.align) rest

def placed (m : Arithmetic) (named : List (Text × Info)) : TypeLayout :=
  ⟨m.alignUp (endFrom m 0 named) (alignFrom 1 named), alignFrom 1 named, fieldsFrom m 0 named⟩

def Room (align : ℕ) : ℕ → List (Text × Info) → Prop
  | offset, [] => offset + (align - 1) < 2 ^ 64
  | offset, (_, info) :: rest =>
    offset + (info.align - 1) < 2 ^ 64 ∧ roundUp offset info.align + info.size < 2 ^ 64 ∧
      Room align (roundUp offset info.align + info.size) rest

def Orderly (size : ℕ) : ℕ → List FieldLayout → Prop
  | offset, [] => offset ≤ size
  | offset, f :: fields => offset ≤ f.offset ∧ Orderly size (f.offset + f.size) fields

def IsAlign (align : ℕ) : Prop := ∃ k < 64, align = 2 ^ k

variable {align : ℕ}

theorem IsAlign.pow (h : IsAlign align) : 0 < align ∧ align ≤ 2 ^ 63 := by
  obtain ⟨k, hk, rfl⟩ := h
  exact ⟨Nat.two_pow_pos k, Nat.pow_le_pow_right (by decide) (by omega)⟩

theorem IsAlign.max {a b : ℕ} (ha : IsAlign a) (hb : IsAlign b) : IsAlign (max a b) := by
  rcases max_choice a b with h | h <;> rwa [h]

theorem isAlign_one : IsAlign 1 := ⟨0, by decide, rfl⟩

theorem alignUp_eq {n : ℕ} (hn : n < 2 ^ 64) (halign : IsAlign align) :
    machine.alignUp n align = if n + (align - 1) < 2 ^ 64 then roundUp n align else 0 := by
  obtain ⟨hpos, hle⟩ := halign.pow
  obtain ⟨k, hk, rfl⟩ := halign
  have hmod : (n + 2 ^ k + (2 ^ 64 - 1)) % 2 ^ 64 = (n + (2 ^ k - 1)) % 2 ^ 64 := by
    rw [show n + 2 ^ k + (2 ^ 64 - 1) = n + (2 ^ k - 1) + 2 ^ 64 by omega, Nat.add_mod_right]
  simp only [machine]
  rw [hmod, and_mask (Nat.mod_lt _ (by decide)) hk.le]
  by_cases hlt : n + (2 ^ k - 1) < 2 ^ 64
  · rw [if_pos hlt, Nat.mod_eq_of_lt hlt, roundUp]
  · rw [if_neg hlt, Nat.mod_eq_sub_mod (by omega), Nat.mod_eq_of_lt (by omega),
      Nat.div_eq_of_lt (by omega), Nat.zero_mul]

theorem alignUp_lt {n : ℕ} (hn : n < 2 ^ 64) (halign : IsAlign align) : machine.alignUp n align < 2 ^ 64 := by
  rw [alignUp_eq hn halign]
  have hle := roundUp_le n align
  split_ifs <;> omega

/-- A multiple of an alignment that is below `2 ^ 64` is an alignment below it. -/
theorem add_lt_of_roundUp_lt {n : ℕ} (halign : IsAlign align) (h : roundUp n align < 2 ^ 64) :
    n + (align - 1) < 2 ^ 64 := by
  have hle := le_roundUp halign.pow.1 n
  have hpos := halign.pow.1
  have hdvd : align ∣ 2 ^ 64 := by
    obtain ⟨k, hk, rfl⟩ := halign
    exact Nat.pow_dvd_pow 2 hk.le
  obtain ⟨c, hc⟩ := Nat.dvd_sub hdvd (dvd_roundUp n align)
  cases c with
  | zero => omega
  | succ c =>
    rw [Nat.mul_succ] at hc
    omega

def Info.Valid (info : Info) : Prop := info.size < 2 ^ 64 ∧ IsAlign info.align

variable {named : List (Text × Info)} {offset : ℕ} {fields : List FieldLayout}

theorem Orderly.offset_lt {size : ℕ} (hsize : size < 2 ^ 64)
    (hfields : ∀ f ∈ fields, f.offset < 2 ^ 64) (h : Orderly size offset fields) : offset < 2 ^ 64 := by
  cases fields with
  | nil => exact h.trans_lt hsize
  | cons f fields => exact h.1.trans_lt (hfields f mem_cons_self)

theorem wrap_lt (n : ℕ) : machine.wrap n < 2 ^ 64 := Nat.mod_lt _ (by decide)

theorem endFrom_lt (hoffset : offset < 2 ^ 64) : endFrom machine offset named < 2 ^ 64 := by
  induction named generalizing offset with
  | nil => exact hoffset
  | cons x named ih => exact ih (wrap_lt _)

theorem fieldsFrom_lt (hoffset : offset < 2 ^ 64) (hnamed : ∀ x ∈ named, x.2.Valid) :
    ∀ f ∈ fieldsFrom machine offset named, f.offset < 2 ^ 64 := by
  induction named generalizing offset with
  | nil => exact fun f hf => nomatch hf
  | cons x named ih =>
    intro f hf
    rcases List.mem_cons.mp hf with rfl | hf
    · exact alignUp_lt hoffset (hnamed x mem_cons_self).2
    · exact ih (wrap_lt _) (fun y hy => hnamed y (mem_cons_of_mem _ hy)) f hf

/-- The first sum that wraps puts something before the end of the fields so far. -/
theorem orderly_iff_room (hnamed : ∀ x ∈ named, x.2.Valid) (hoffset : offset < 2 ^ 64) (halign : IsAlign align) :
    Orderly (machine.alignUp (endFrom machine offset named) align) offset (fieldsFrom machine offset named) ↔
      Room align offset named := by
  induction named generalizing offset with
  | nil =>
    obtain ⟨hpos, hle⟩ := halign.pow
    simp only [Orderly, endFrom, fieldsFrom, Room, alignUp_eq hoffset halign]
    have hup := le_roundUp hpos offset
    split_ifs <;> omega
  | cons x named ih =>
    obtain ⟨name, info⟩ := x
    have hinfo : IsAlign info.align := (hnamed _ mem_cons_self).2
    have hrest : ∀ y ∈ named, y.2.Valid := fun y hy => hnamed y (mem_cons_of_mem _ hy)
    obtain ⟨hpos, hle⟩ := hinfo.pow
    have hup := le_roundUp hpos offset
    simp only [Orderly, endFrom, fieldsFrom, Room]
    by_cases hstart : offset + (info.align - 1) < 2 ^ 64
    · rw [alignUp_eq hoffset hinfo, if_pos hstart]
      by_cases hstop : roundUp offset info.align + info.size < 2 ^ 64
      · rw [show machine.wrap _ = _ from Nat.mod_eq_of_lt hstop, ih hrest hstop]
        exact ⟨fun h => ⟨hstart, hstop, h.2⟩, fun h => ⟨hup, h.2.2⟩⟩
      · refine iff_of_false (fun h => hstop ?_) fun h => hstop h.2.1
        exact h.2.offset_lt (alignUp_lt (endFrom_lt (wrap_lt _)) halign) (fieldsFrom_lt (wrap_lt _) hrest)
    · rw [alignUp_eq hoffset hinfo, if_neg hstart]
      refine iff_of_false (fun h => ?_) fun h => hstart h.1
      omega

theorem orderly_iff {size : ℕ} :
    Orderly size offset fields ↔ offset ≤ size ∧ (∀ f ∈ fields, offset ≤ f.offset ∧ f.offset + f.size ≤ size) ∧
      fields.Pairwise fun f g => f.offset + f.size ≤ g.offset := by
  induction fields generalizing offset with
  | nil => simp [Orderly]
  | cons f fields ih =>
    rw [Orderly, ih, pairwise_cons]
    constructor
    · rintro ⟨hoffset, hend, hfields, hpairs⟩
      refine ⟨by omega, ?_, fun g hg => (hfields g hg).1, hpairs⟩
      intro g hg
      rcases List.mem_cons.mp hg with rfl | hg
      · exact ⟨hoffset, hend⟩
      · have hlater := hfields g hg
        omega
    · rintro ⟨-, hfields, hfirst, hpairs⟩
      obtain ⟨hoffset, hend⟩ := hfields f mem_cons_self
      exact ⟨hoffset, hend, fun g hg => ⟨hfirst g hg, (hfields g (mem_cons_of_mem _ hg)).2⟩, hpairs⟩

theorem alignFrom_isAlign (hnamed : ∀ x ∈ named, x.2.Valid) (halign : IsAlign align) :
    IsAlign (alignFrom align named) := by
  induction named generalizing align with
  | nil => exact halign
  | cons x named ih =>
    apply ih fun y hy => hnamed y (mem_cons_of_mem _ hy)
    exact halign.max (hnamed x mem_cons_self).2

/-- Where there is room, the layout is the exact one. -/
theorem exact_of_room (hnamed : ∀ x ∈ named, x.2.Valid) (hoffset : offset < 2 ^ 64) (halign : IsAlign align)
    (h : Room align offset named) : fieldsFrom machine offset named = fieldsFrom unbounded offset named ∧
      machine.alignUp (endFrom machine offset named) align = roundUp (endFrom unbounded offset named) align := by
  induction named generalizing offset with
  | nil => exact ⟨rfl, (alignUp_eq hoffset halign).trans (if_pos h)⟩
  | cons x named ih =>
    obtain ⟨hstart, hstop, hrest⟩ := h
    have hup : machine.alignUp offset x.2.align = roundUp offset x.2.align :=
      (alignUp_eq hoffset (hnamed x mem_cons_self).2).trans (if_pos hstart)
    obtain ⟨hfields, hend⟩ := ih (fun y hy => hnamed y (mem_cons_of_mem _ hy)) hstop hrest
    simp only [fieldsFrom, endFrom, hup]
    rw [show machine.wrap _ = _ from Nat.mod_eq_of_lt hstop, hfields, hend]
    exact ⟨rfl, rfl⟩

theorem le_endFrom (offset : ℕ) (hnamed : ∀ x ∈ named, 0 < x.2.align) :
    offset ≤ endFrom unbounded offset named ∧ ∀ x ∈ named, x.2.size ≤ endFrom unbounded offset named := by
  induction named generalizing offset with
  | nil => exact ⟨le_rfl, fun x hx => nomatch hx⟩
  | cons x named ih =>
    obtain ⟨hle, hsizes⟩ := ih (roundUp offset x.2.align + x.2.size) fun y hy => hnamed y (mem_cons_of_mem _ hy)
    have hup := le_roundUp (hnamed x mem_cons_self) offset
    change offset ≤ endFrom unbounded (roundUp offset x.2.align + x.2.size) named ∧
      ∀ y ∈ x :: named, y.2.size ≤ endFrom unbounded (roundUp offset x.2.align + x.2.size) named
    refine ⟨by omega, fun y hy => ?_⟩
    rcases List.mem_cons.mp hy with rfl | hy
    · omega
    · exact hsizes y hy

theorem room_of_lt (hnamed : ∀ x ∈ named, x.2.Valid) (halign : IsAlign align)
    (h : roundUp (endFrom unbounded offset named) align < 2 ^ 64) : Room align offset named := by
  induction named generalizing offset with
  | nil => exact add_lt_of_roundUp_lt halign h
  | cons x named ih =>
    have hrest : ∀ y ∈ named, y.2.Valid := fun y hy => hnamed y (mem_cons_of_mem _ hy)
    have hle := (le_endFrom (roundUp offset x.2.align + x.2.size) fun y hy => (hrest y hy).2.pow.1).1
    have hend := (le_roundUp halign.pow.1 _).trans_lt h
    have hstop : roundUp offset x.2.align + x.2.size < 2 ^ 64 := hle.trans_lt hend
    exact ⟨add_lt_of_roundUp_lt (hnamed x mem_cons_self).2 (by omega), hstop, ih hrest h⟩

variable {m : Arithmetic} {p : Program} {answer : TypeId → Option (Option TypeLayout)}

def InfoOf (m : Arithmetic) (p : Program) (answer : TypeId → Option (Option TypeLayout)) (ty : Threads.Ty)
    (info : Info) : Prop := (fieldInfo m p ty).eval answer = some (some info)

def Named (m : Arithmetic) (p : Program) (answer : TypeId → Option (Option TypeLayout)) (f : Text × Threads.Ty)
    (g : Text × Info) : Prop := g.1 = f.1 ∧ InfoOf m p answer f.2 g.2

variable {layout : TypeLayout} {fields : List (Text × Threads.Ty)}

theorem eval_placeFields {offset align : ℕ} {before : List FieldLayout}
    (h : (placeFields m p fields offset align before).eval answer = some (some layout)) :
    ∃ named, List.Forall₂ (Named m p answer) fields named ∧
      layout = ⟨m.alignUp (endFrom m offset named) (alignFrom align named), alignFrom align named,
        before ++ fieldsFrom m offset named⟩ := by
  induction fields generalizing offset align before with
  | nil =>
    cases h
    exact ⟨[], .nil, by simp [endFrom, alignFrom, fieldsFrom]⟩
  | cons f fields ih =>
    rw [placeFields, Ask.eval_bind] at h
    obtain ⟨info, hinfo, hrest⟩ := Option.bind_eq_some_iff.mp h
    cases info with
    | none => cases hrest
    | some info =>
      obtain ⟨named, hnamed, rfl⟩ := ih hrest
      refine ⟨(f.1, info) :: named, .cons ⟨rfl, hinfo⟩ hnamed, ?_⟩
      simp [endFrom, alignFrom, fieldsFrom]

def fieldsOf (p : Program) : TypeId → List (Text × Threads.Ty)
  | .decl name => ((p.structs.lookup name).map (·.fields)).getD []
  | .inst base args => ((p.structs.lookup base).map (instanceFields p · args)).getD []

theorem compute_cases (p : Program) (id : TypeId) : (∀ m, compute m p id = fieldsLayout m p (fieldsOf p id)) ∨
    fieldsOf p id = [] ∧ ∃ r, (∀ m, compute m p id = .done r) ∧ ∀ layout, r = some layout → layout = ⟨4, 4, []⟩ := by
  cases id with
  | decl name =>
    cases hstruct : p.structs.lookup name with
    | some decl => exact .inl fun m => by simp [compute, fieldsOf, hstruct]
    | none =>
      refine .inr ⟨by simp [fieldsOf, hstruct], ?_⟩
      cases henum : p.enums.lookup name with
      | none => exact ⟨none, fun m => by simp [compute, hstruct, henum], fun layout h => by cases h⟩
      | some decl =>
        refine ⟨enumLayout decl, fun m => by simp [compute, hstruct, henum], fun layout h => ?_⟩
        unfold enumLayout at h
        split_ifs at h
        exact (Option.some.inj h).symm
  | inst base args =>
    cases hstruct : p.structs.lookup base with
    | some decl => exact .inl fun m => by simp [compute, fieldsOf, hstruct]
    | none =>
      exact .inr ⟨by simp [fieldsOf, hstruct], none, fun m => by simp [compute, hstruct], fun layout h => by cases h⟩

variable {el : Threads.Element}

theorem bits_le {b : ℕ} (h : bits el = some b) : b ∈ [1, 4, 8, 16, 32, 64, 128] := by
  cases el <;> cases h <;> decide

theorem nextPowerOfTwo_isAlign {n : ℕ} (h : n ≤ 2 ^ 62) : IsAlign (nextPowerOfTwo n) := by
  unfold nextPowerOfTwo
  split_ifs with hle
  · exact ⟨0, by decide, rfl⟩
  · refine ⟨(n - 1).log2 + 1, ?_, rfl⟩
    have hlog : (n - 1).log2 < 62 := (Nat.log2_lt (by omega)).mpr (by omega)
    omega

/-- The storage of what is no aggregate. -/
inductive Plain (m : Arithmetic) : Info → Prop
  | scalar {el : Threads.Element} {b : ℕ} (hb : bits el = some b) : Plain m ⟨(b + 7) / 8, (b + 7) / 8, .scalar el⟩
  | word : Plain m ⟨8, 8, .opaqueWord⟩
  | tensor (el : Threads.Element) (rank : ℕ) : Plain m ⟨m.wrap (24 + 16 * rank), 8, .tensor el rank⟩
  | vector {el : Threads.Element} {b : ℕ} (lanes : ℕ) (hb : bits el = some b) :
      Plain m ⟨(m.wrap (b * lanes) + 7) / 8, nextPowerOfTwo ((m.wrap (b * lanes) + 7) / 8), .vector el lanes⟩

variable {info : Info}

theorem Plain.valid (h : Plain machine info) : info.Valid := by
  cases h with
  | @scalar el b hb =>
    have hbits : ∀ b ∈ [1, 4, 8, 16, 32, 64, 128], (b + 7) / 8 < 2 ^ 64 ∧ ∃ k < 64, (b + 7) / 8 = 2 ^ k := by
      decide
    exact hbits b (bits_le hb)
  | word => exact ⟨by decide, 3, by decide, rfl⟩
  | tensor el rank => exact ⟨wrap_lt _, 3, by decide, rfl⟩
  | @vector el b lanes hb =>
    have hlt := wrap_lt (b * lanes)
    exact ⟨by simp only; omega, nextPowerOfTwo_isAlign (by omega)⟩

theorem Plain.ty_ne (h : Plain m info) (id : TypeId) : info.ty ≠ .nominal id := by
  cases h <;> nofun

variable {ty : Threads.Ty}

theorem structuralFieldInfo_plain (h : structuralFieldInfo m ty = some info) : Plain m info := by
  induction ty using structuralFieldInfo.induct with
  | case1 el =>
    obtain ⟨b, hb, rfl⟩ := Option.map_eq_some_iff.mp h
    exact .scalar hb
  | case2 | case3 =>
    simp only [structuralFieldInfo, tensorInfo] at h
    split at h
    · cases h
    · cases h
      exact .tensor _ _
  | case9 el lanes =>
    simp only [structuralFieldInfo, vectorInfo] at h
    split_ifs at h
    obtain ⟨b, hb, rfl⟩ := Option.map_eq_some_iff.mp h
    exact .vector lanes hb
  | case10 _ _ ih | case11 _ ih => exact ih h
  | case12 =>
    rw [structuralFieldInfo] at h
    · cases h
    all_goals assumption
  | case6 =>
    rw [structuralFieldInfo] at h
    · cases h
      exact .word
    all_goals assumption
  | _ =>
    cases h
    exact .word

/-- A field is plain, or it is an aggregate with its own layout. -/
theorem InfoOf.cases (h : InfoOf m p answer ty info) :
    Plain m info ∨ ∃ id layout, answer id = some (some layout) ∧ info = nominalInfo id layout := by
  have hask : ∀ {id : TypeId}, (askNominal id).eval answer = some (some info) →
      ∃ id layout, answer id = some (some layout) ∧ info = nominalInfo id layout := by
    intro id hid
    obtain ⟨layout, hlayout, hinfo⟩ := Option.bind_eq_some_iff.mp hid
    obtain ⟨layout, rfl, rfl⟩ := Option.map_eq_some_iff.mp (Option.some.inj hinfo)
    exact ⟨id, layout, hlayout, rfl⟩
  have hinstance : ∀ {name : Text} {args : List Threads.Ty}, (askInstance p name args).eval answer = some (some info) →
      ∃ id layout, answer id = some (some layout) ∧ info = nominalInfo id layout := by
    intro name args hid
    obtain ⟨layout, hlayout, hinfo⟩ := Option.bind_eq_some_iff.mp hid
    cases layout with
    | some layout =>
      cases hinfo
      exact ⟨.decl name, layout, hlayout, rfl⟩
    | none =>
      split_ifs at hinfo
      · exact hask hinfo
      · cases hinfo
  unfold InfoOf at h
  fun_induction fieldInfo m p ty with
  | case1 _ _ ih | case2 _ ih => exact ih h
  | case3 _ _ _ info' hstructural =>
    cases h
    exact .inl (structuralFieldInfo_plain hstructural)
  | case4 | case5 => exact .inr (hask h)
  | case6 | case8 => exact .inr (hinstance h)
  | case7 | case9 | case10 => cases h

def TypeLayout.Valid (layout : TypeLayout) : Prop := layout.size < 2 ^ 64 ∧ IsAlign layout.align

theorem Named.valid (hanswer : ∀ id layout, answer id = some (some layout) → layout.Valid)
    {named : List (Text × Info)} (h : List.Forall₂ (Named machine p answer) fields named) : ∀ x ∈ named, x.2.Valid := by
  induction h with
  | nil => exact fun x hx => nomatch hx
  | cons hx _ ih =>
    intro y hy
    rcases List.mem_cons.mp hy with rfl | hy
    · rcases hx.2.cases with hplain | ⟨id, layout, hlayout, heq⟩
      · exact hplain.valid
      · rw [heq]
        exact hanswer id layout hlayout
    · exact ih y hy

theorem placed_valid {named : List (Text × Info)} (h : ∀ x ∈ named, x.2.Valid) : (placed machine named).Valid := by
  have halign := alignFrom_isAlign h isAlign_one
  exact ⟨alignUp_lt (endFrom_lt (by decide)) halign, halign⟩

/-- A layout is that of an enum, or it places the fields. -/
theorem eval_compute {id : TypeId} (h : (compute m p id).eval answer = some (some layout)) :
    fieldsOf p id = [] ∧ (∀ m, compute m p id = .done (some layout)) ∧ layout = ⟨4, 4, []⟩ ∨
      (∀ m, compute m p id = fieldsLayout m p (fieldsOf p id)) ∧
        ∃ named, List.Forall₂ (Named m p answer) (fieldsOf p id) named ∧ layout = placed m named := by
  rcases compute_cases p id with hcompute | ⟨hfields, r, hcompute, hr⟩
  · rw [hcompute] at h
    exact .inr ⟨hcompute, eval_placeFields h⟩
  · rw [hcompute] at h
    cases h
    exact .inl ⟨hfields, hcompute, hr _ rfl⟩

theorem value_valid {n : ℕ} {id : TypeId} (h : value (compute machine p) n id = some (some layout)) : layout.Valid := by
  induction n generalizing id layout with
  | zero => cases h
  | succ n ih =>
    rcases eval_compute h with ⟨-, -, rfl⟩ | ⟨-, named, hnamed, rfl⟩
    · exact ⟨by decide, 2, by decide, rfl⟩
    · exact placed_valid (Named.valid (fun _ _ => ih) hnamed)

section
variable {k : Arithmetic} {answer' : TypeId → Option (Option TypeLayout)}

theorem both_cases {α β : Type} {a : Option (Option α)} {b : Option (Option β)} (h : a.map isSome = b.map isSome) :
    a = none ∧ b = none ∨ a = some none ∧ b = some none ∨ ∃ x y, a = some (some x) ∧ b = some (some y) := by
  rcases a with _ | _ | x <;> rcases b with _ | _ | y <;> simp at h ⊢

theorem structuralFieldInfo_ty (ty : Threads.Ty) :
    (structuralFieldInfo m ty).map Info.ty = (structuralFieldInfo k ty).map Info.ty := by
  induction ty using structuralFieldInfo.induct with
  | case2 | case3 =>
    simp only [structuralFieldInfo, tensorInfo]
    split <;> rfl
  | case9 el lanes =>
    simp only [structuralFieldInfo, vectorInfo]
    split_ifs
    · rfl
    · cases bits el <;> rfl
  | case10 _ _ ih | case11 _ ih => exact ih
  | case6 | case12 =>
    rw [structuralFieldInfo, structuralFieldInfo]
    all_goals assumption
  | _ => rfl

theorem fieldInfo_of_structural {info : Info} (h : structuralFieldInfo m ty = some info) :
    fieldInfo m p ty = .done (some info) := by
  fun_induction fieldInfo m p ty with
  | case1 _ _ ih | case2 _ ih => exact ih h
  | case3 _ _ _ _ hsome => rw [Option.some.inj (hsome.symm.trans h)]
  | _ => simp_all [structuralFieldInfo]

/-- Which fields have a storage, and of which type, does not depend on the arithmetic. -/
theorem fieldInfo_ty (hanswer : ∀ id, (answer id).map isSome = (answer' id).map isSome) (ty : Threads.Ty) :
    ((fieldInfo m p ty).eval answer).map (Option.map Info.ty) = ((fieldInfo k p ty).eval answer').map (Option.map Info.ty) := by
  have hnominal (id : TypeId) : ((askNominal id).eval answer).map (Option.map Info.ty) =
      ((askNominal id).eval answer').map (Option.map Info.ty) := by
    rcases both_cases (hanswer id) with ⟨h, h'⟩ | ⟨h, h'⟩ | ⟨x, y, h, h'⟩ <;>
      simp [askNominal, Ask.eval, h, h', nominalInfo]
  have hinstance (name : Text) (args : List Threads.Ty) : ((askInstance p name args).eval answer).map (Option.map Info.ty) =
      ((askInstance p name args).eval answer').map (Option.map Info.ty) := by
    rcases both_cases (hanswer (.decl name)) with ⟨h, h'⟩ | ⟨h, h'⟩ | ⟨x, y, h, h'⟩
    · simp [askInstance, Ask.eval, h, h']
    · simp only [askInstance, Ask.eval, h, h', Option.bind_some]
      split_ifs
      · exact hnominal _
      · rfl
    · simp [askInstance, Ask.eval, h, h', nominalInfo]
  have hstructural := structuralFieldInfo_ty (m := m) (k := k) ty
  fun_induction fieldInfo m p ty with
  | case1 inner _ ih | case2 inner ih => simpa only [fieldInfo] using ih hstructural
  | case3 ty _ _ info hsome =>
    rw [hsome] at hstructural
    obtain ⟨info', hsome', hty⟩ := Option.map_eq_some_iff.mp hstructural.symm
    rw [fieldInfo_of_structural hsome']
    simp [Ask.eval, hty]
  | case4 | case5 => exact hnominal _
  | case6 | case8 =>
    simp only [fieldInfo, structuralFieldInfo, if_pos ‹isDeclared p _ = true›]
    exact hinstance _ _
  | case7 | case9 =>
    simp only [fieldInfo, structuralFieldInfo, if_neg ‹¬ isDeclared p _ = true›]
    rfl
  | case10 ty _ _ hnone =>
    rw [hnone] at hstructural
    have hnone' := Option.map_eq_none_iff.mp hstructural.symm
    rw [fieldInfo]
    · simp only [hnone']
      rfl
    all_goals assumption

theorem isSome_placeFields (hanswer : ∀ id, (answer id).map isSome = (answer' id).map isSome)
    {offset align offset' align' : ℕ} {before before' : List FieldLayout} :
    ((placeFields m p fields offset align before).eval answer).map isSome =
      ((placeFields k p fields offset' align' before').eval answer').map isSome := by
  induction fields generalizing offset align offset' align' before before' with
  | nil => rfl
  | cons f fields ih =>
    have hty := fieldInfo_ty (m := m) (k := k) (p := p) hanswer f.2
    rw [placeFields, placeFields, Ask.eval_bind, Ask.eval_bind]
    have hsome := congrArg (Option.map isSome) hty
    simp only [Option.map_map, Function.comp_def, Option.isSome_map] at hsome
    rcases both_cases hsome with ⟨h, h'⟩ | ⟨h, h'⟩ | ⟨x, y, h, h'⟩
    · rw [h, h']
      rfl
    · rw [h, h']
      rfl
    · rw [h, h']
      exact ih

theorem isSome_value (n : ℕ) (id : TypeId) :
    (value (compute m p) n id).map isSome = (value (compute k p) n id).map isSome := by
  induction n generalizing id with
  | zero => rfl
  | succ n ih =>
    rcases compute_cases p id with hcompute | ⟨-, r, hcompute, -⟩
    · rw [value, value, hcompute, hcompute]
      exact isSome_placeFields ih
    · rw [value, value, hcompute, hcompute]
      rfl

end

variable {id : TypeId} {f : Text × Threads.Ty} {g : Text × Info}

def Stored (m : Arithmetic) (p : Program) (f : Text × Threads.Ty) (g : Text × Info) : Prop :=
  ∃ n, Named m p (value (compute m p) n) f g

theorem Stored.unique {g' : Text × Info} (h : Stored m p f g) (h' : Stored m p f g') : g = g' := by
  obtain ⟨n, hname, hinfo⟩ := h
  obtain ⟨k, hname', hinfo'⟩ := h'
  have heq := (eval_le (Nat.le_max_left n k) hinfo).symm.trans (eval_le (Nat.le_max_right n k) hinfo')
  exact Prod.ext (hname.trans hname'.symm) (Option.some.inj (Option.some.inj heq))

theorem Stored.cases (h : Stored m p f g) :
    Plain m g.2 ∨ ∃ id layout, Value (compute m p) id (some layout) ∧ g.2 = nominalInfo id layout := by
  obtain ⟨n, -, hinfo⟩ := h
  rcases hinfo.cases with hplain | ⟨id, layout, hlayout, heq⟩
  · exact .inl hplain
  · exact .inr ⟨id, layout, ⟨n, hlayout⟩, heq⟩

theorem Stored.valid (h : Stored machine p f g) : g.2.Valid := by
  rcases h.cases with hplain | ⟨id, layout, ⟨n, hn⟩, heq⟩
  · exact hplain.valid
  · rw [heq]
    exact value_valid hn

/-- A layout and the exact one place the same types. -/
inductive Both (p : Program) (id : TypeId) : TypeLayout → TypeLayout → Prop
  | enum (hfields : fieldsOf p id = []) : Both p id ⟨4, 4, []⟩ ⟨4, 4, []⟩
  | struct {named named' : List (Text × Info)} (hnamed : List.Forall₂ (Stored machine p) (fieldsOf p id) named)
      (hnamed' : List.Forall₂ (Stored unbounded p) (fieldsOf p id) named')
      (htys : List.Forall₂ (fun x y => x.1 = y.1 ∧ x.2.ty = y.2.ty) named named') :
      Both p id (placed machine named) (placed unbounded named')

theorem same_types {answer' : TypeId → Option (Option TypeLayout)} {named named' : List (Text × Info)} {k : Arithmetic}
    (hanswer : ∀ id, (answer id).map isSome = (answer' id).map isSome)
    (h : List.Forall₂ (Named m p answer) fields named) (h' : List.Forall₂ (Named k p answer') fields named') :
    List.Forall₂ (fun x y => x.1 = y.1 ∧ x.2.ty = y.2.ty) named named' := by
  induction h generalizing named' with
  | nil =>
    cases h'
    exact .nil
  | @cons f _ _ _ hx _ ih =>
    cases h' with
    | cons hy hrest =>
      refine .cons ⟨hx.1.trans hy.1.symm, ?_⟩ (ih hrest)
      have hty := fieldInfo_ty (m := m) (k := k) (p := p) hanswer f.2
      rw [hx.2, hy.2] at hty
      exact Option.some.inj (Option.some.inj hty)

theorem both_of_value (h : Value (compute machine p) id (some layout)) :
    ∃ layout', Value (compute unbounded p) id (some layout') ∧ Both p id layout layout' := by
  obtain ⟨n, hn⟩ := h
  have hsome := isSome_value (m := machine) (k := unbounded) (p := p) n id
  rw [hn] at hsome
  rcases both_cases hsome with ⟨h, -⟩ | ⟨h, -⟩ | ⟨x, layout', h, hn'⟩
  · cases h
  · cases h
  refine ⟨layout', ⟨n, hn'⟩, ?_⟩
  cases n with
  | zero => cases hn
  | succ n =>
    rcases eval_compute hn with ⟨hfields, hcompute, rfl⟩ | ⟨hcompute, named, hnamed, rfl⟩
    · rw [value, hcompute] at hn'
      cases hn'
      exact .enum hfields
    · rw [value, hcompute] at hn'
      obtain ⟨named', hnamed', rfl⟩ := eval_placeFields hn'
      exact .struct (hnamed.imp fun _ _ h => ⟨n, h⟩) (hnamed'.imp fun _ _ h => ⟨n, h⟩)
        (same_types (isSome_value n) hnamed hnamed')

def FieldTy.BitsFit : FieldTy → Prop
  | .vector el lanes => ∀ b, bits el = some b → b * lanes < 2 ^ 64
  | _ => True

/-- The exact size of a type is below `2 ^ 64`, and so is the number of bits of every vector in it. -/
inductive FitsWord (p : Program) : TypeId → Prop
  | intro {id : TypeId} {layout : TypeLayout} (exact : Value (compute unbounded p) id (some layout))
      (size : layout.size < 2 ^ 64) (vectors : ∀ f ∈ layout.fields, f.ty.BitsFit)
      (nested : ∀ f ∈ layout.fields, ∀ id', f.ty = .nominal id' → FitsWord p id') : FitsWord p id

/-- The fields of a type are in place, each with the size and the alignment that its type has exactly, and so are the
fields of the aggregates in it. -/
inductive LaidOut (p : Program) : TypeId → TypeLayout → Prop
  | intro {id : TypeId} {layout : TypeLayout}
      (fields : List.Forall₂ (fun f g => ∃ info, Stored unbounded p f (g.name, info) ∧ g.size = info.size ∧
        g.ty = info.ty ∧ info.align ∣ g.offset) (fieldsOf p id) layout.fields)
      (nested : ∀ f ∈ layout.fields, ∀ id', f.ty = .nominal id' →
        ∃ l, Value (compute machine p) id' (some l) ∧ f.size = l.size)
      (inner : ∀ f ∈ layout.fields, ∀ id', f.ty = .nominal id' →
        ∀ l, Value (compute machine p) id' (some l) → LaidOut p id' l)
      (apart : layout.fields.Pairwise fun f g => f.offset + f.size ≤ g.offset)
      (within : ∀ f ∈ layout.fields, f.offset + f.size ≤ layout.size)
      (size : layout.align ∣ layout.size)
      (same : ∀ s, Reached (compute machine p) none s → ∀ r, (∃ n s', layoutOf p n id s = some (r, s')) ↔ r = some layout) :
      LaidOut p id layout

theorem mem_fieldsFrom {named : List (Text × Info)} (offset : ℕ) (h : g ∈ named) :
    ∃ f ∈ fieldsFrom m offset named, f.size = g.2.size ∧ f.ty = g.2.ty := by
  induction named generalizing offset with
  | nil => cases h
  | cons x named ih =>
    rcases List.mem_cons.mp h with rfl | h
    · exact ⟨_, mem_cons_self, rfl, rfl⟩
    · obtain ⟨f, hf, heq⟩ := ih _ h
      exact ⟨f, mem_cons_of_mem _ hf, heq⟩

/-- A plain storage is the exact one where its size is. -/
theorem Plain.eq_iff {info' : Info} (h : Plain machine info) (h' : Plain unbounded info') (hty : info.ty = info'.ty) :
    (info = info' ↔ info.size = info'.size) ∧ (info'.size < 2 ^ 64 → info'.ty.BitsFit → info.size = info'.size) ∧
      (info.size = info'.size → info'.ty.BitsFit) := by
  cases h with
  | scalar hb =>
    cases h' with
    | scalar hb' =>
      cases hty
      cases hb.symm.trans hb'
      simp [FieldTy.BitsFit]
    | _ => cases hty
  | word =>
    cases h' with
    | word => simp [FieldTy.BitsFit]
    | _ => cases hty
  | tensor el rank =>
    cases h' with
    | tensor =>
      cases hty
      refine ⟨⟨fun h => congrArg _ h, fun h => ?_⟩, fun h _ => Nat.mod_eq_of_lt h, fun _ => trivial⟩
      simp only at h
      rw [h]
    | _ => cases hty
  | @vector el b lanes hb =>
    cases h' with
    | vector _ hb' =>
      cases hty
      cases hb.symm.trans hb'
      refine ⟨⟨fun h => congrArg _ h, fun h => ?_⟩, fun _ h => ?_, fun h b' hb'' => ?_⟩
      · simp only at h
        rw [h]
      · have hlt := h b hb
        simp only [machine, unbounded]
        omega
      · cases hb.symm.trans hb''
        simp only [machine, unbounded] at h
        omega
    | _ => cases hty

variable {named named' : List (Text × Info)}

theorem le_alignFrom (align : ℕ) (named : List (Text × Info)) : align ≤ alignFrom align named := by
  induction named generalizing align with
  | nil => exact le_rfl
  | cons x named ih => exact (Nat.le_max_left _ _).trans (ih _)

theorem Stored.align_pos (h : Stored m p f g) : 0 < g.2.align := by
  rcases h.cases with hplain | ⟨id, layout, ⟨n, hn⟩, heq⟩
  · generalize g.2 = info at hplain
    cases hplain with
    | scalar hb =>
      have hbits := bits_le hb
      simp only [List.mem_cons, List.not_mem_nil, or_false] at hbits
      simp only
      omega
    | word | tensor => exact Nat.succ_pos 7
    | vector =>
      simp only [nextPowerOfTwo]
      split_ifs
      · decide
      · exact Nat.two_pow_pos _
  · rw [heq]
    cases n with
    | zero => cases hn
    | succ n =>
      rcases eval_compute hn with ⟨-, -, rfl⟩ | ⟨-, named, -, rfl⟩
      · exact Nat.succ_pos 3
      · exact le_alignFrom 1 named

theorem stored_of_mem (h : List.Forall₂ (Stored m p) fields named) : ∀ x ∈ named, ∃ f, Stored m p f x := by
  induction h with
  | nil => exact fun x hx => nomatch hx
  | cons hx _ ih =>
    intro y hy
    rcases List.mem_cons.mp hy with rfl | hy
    · exact ⟨_, hx⟩
    · exact ih y hy

section
variable (hnamed : List.Forall₂ (Stored machine p) fields named)
  (htys : List.Forall₂ (fun x y => x.1 = y.1 ∧ x.2.ty = y.2.ty) named named')
include hnamed htys

/-- Two storages of a type are the same where plain ones have one size and aggregates one layout. -/
theorem named_eq (hnamed' : List.Forall₂ (Stored unbounded p) fields named')
    (hplain : List.Forall₂ (fun x y => Plain machine x.2 → Plain unbounded y.2 → x.2.size = y.2.size) named named')
    (hnested : List.Forall₂ (fun _ y => ∀ id l, y.2.ty = .nominal id → Value (compute machine p) id (some l) →
      Value (compute unbounded p) id (some l)) named named') : named = named' := by
  induction hnamed generalizing named' with
  | nil =>
    cases hnamed'
    rfl
  | cons hx _ ih =>
    cases hnamed' with
    | cons hy hrest =>
      cases htys with
      | cons hty htys =>
        obtain ⟨hsize, hplain⟩ := List.forall₂_cons.mp hplain
        obtain ⟨hsame, hnested⟩ := List.forall₂_cons.mp hnested
        · rw [ih htys hrest hplain hnested]
          congr 1
          refine Prod.ext hty.1 ?_
          rcases hx.cases with hxplain | ⟨id, l, hl, heq⟩ <;> rcases hy.cases with hyplain | ⟨id', l', hl', heq'⟩
          · exact (hxplain.eq_iff hyplain hty.2).1.mpr (hsize hxplain hyplain)
          · exact absurd (hty.2.trans (congrArg Info.ty heq')) (hxplain.ty_ne id')
          · exact absurd (hty.2.symm.trans (congrArg Info.ty heq)) (hyplain.ty_ne id)
          · have hid : id = id' := by
              have h := hty.2
              rw [heq, heq'] at h
              exact FieldTy.nominal.inj h
            subst hid
            have hvalue := hsame id l (congrArg Info.ty heq') hl
            cases hvalue.unique hl'
            rw [heq, heq']

end

theorem placed_eq (hvalid : ∀ x ∈ named, x.2.Valid) (hroom : Room (alignFrom 1 named) 0 named) :
    placed machine named = placed unbounded named := by
  obtain ⟨hfields, hend⟩ := exact_of_room hvalid (by decide) (alignFrom_isAlign hvalid isAlign_one) hroom
  rw [placed, placed, hfields, hend]
  rfl

theorem stored_valid (h : List.Forall₂ (Stored machine p) fields named) : ∀ x ∈ named, x.2.Valid := by
  intro x hx
  obtain ⟨f, hf⟩ := stored_of_mem h x hx
  exact hf.valid

theorem forall₂_of_mem {α β : Type} {R S : α → β → Prop} {xs : List α} {ys : List β} (h : List.Forall₂ R xs ys)
    (hS : ∀ x ∈ xs, ∀ y ∈ ys, R x y → S x y) : List.Forall₂ S xs ys := by
  induction h with
  | nil => exact .nil
  | cons hx _ ih =>
    refine .cons (hS _ mem_cons_self _ mem_cons_self hx) (ih ?_)
    exact fun x hx y hy => hS x (mem_cons_of_mem _ hx) y (mem_cons_of_mem _ hy)

/-- Where the exact layout fits, it is the one that is computed. -/
theorem room_of_fits (hnamed : List.Forall₂ (Stored machine p) fields named)
    (hnamed' : List.Forall₂ (Stored unbounded p) fields named')
    (htys : List.Forall₂ (fun x y => x.1 = y.1 ∧ x.2.ty = y.2.ty) named named')
    (hsize : (placed unbounded named').size < 2 ^ 64) (hvectors : ∀ f ∈ (placed unbounded named').fields, f.ty.BitsFit)
    (hnested : ∀ f ∈ (placed unbounded named').fields, ∀ id l, f.ty = .nominal id → Value (compute machine p) id (some l) →
      Value (compute unbounded p) id (some l)) : named = named' ∧ Room (alignFrom 1 named) 0 named := by
  have hpos : ∀ y ∈ named', 0 < y.2.align := by
    intro y hy
    obtain ⟨f, hf⟩ := stored_of_mem hnamed' y hy
    exact hf.align_pos
  have hsizes : ∀ y ∈ named', y.2.size < 2 ^ 64 := by
    intro y hy
    have hle := (le_endFrom 0 hpos).2 y hy
    have hup := le_roundUp (show 0 < alignFrom 1 named' from le_alignFrom 1 named') (endFrom unbounded 0 named')
    exact (hle.trans hup).trans_lt hsize
  have heq : named = named' := by
    refine named_eq hnamed htys hnamed' (forall₂_of_mem htys ?_) (forall₂_of_mem htys ?_)
    · intro x _ y hy hty hx hy'
      obtain ⟨f, hf, -, hfty⟩ := mem_fieldsFrom (m := unbounded) 0 hy
      exact (hx.eq_iff hy' hty.2).2.1 (hsizes y hy) (hfty ▸ hvectors f hf)
    · intro _ _ y hy _ id l hid hl
      obtain ⟨f, hf, -, hfty⟩ := mem_fieldsFrom (m := unbounded) 0 hy
      exact hnested f hf id l (hfty.trans hid) hl
  subst heq
  have hvalid := stored_valid hnamed
  exact ⟨rfl, room_of_lt hvalid (alignFrom_isAlign hvalid isAlign_one) hsize⟩

theorem FitsWord.same (h : FitsWord p id) (hvalue : Value (compute machine p) id (some layout)) :
    Value (compute unbounded p) id (some layout) := by
  induction h generalizing layout with
  | intro hexact hsize hvectors _ ih =>
    obtain ⟨layout', hvalue', hboth⟩ := both_of_value hvalue
    cases hvalue'.unique hexact
    cases hboth with
    | enum => exact hexact
    | struct hnamed hnamed' htys =>
      obtain ⟨rfl, hroom⟩ := room_of_fits hnamed hnamed' htys hsize hvectors fun f hf id l hid hl => ih f hf id hid hl
      rwa [placed_eq (stored_valid hnamed) hroom]

/-- What is laid out has the exact sizes. -/
theorem sizes_eq {offset : ℕ} (hnamed' : List.Forall₂ (Stored unbounded p) fields named')
    (h : List.Forall₂ (fun f g => ∃ info, Stored unbounded p f (g.name, info) ∧ g.size = info.size ∧
      g.ty = info.ty ∧ info.align ∣ g.offset) fields (fieldsFrom machine offset named)) :
    List.Forall₂ (fun x y => x.2.size = y.2.size) named named' := by
  induction hnamed' generalizing named offset with
  | nil =>
    cases named with
    | nil => exact .nil
    | cons => cases h
  | cons hy _ ih =>
    cases named with
    | nil => cases h
    | cons x named =>
      cases h with
      | cons hx hrest =>
        obtain ⟨info, hstored, hsize, -⟩ := hx
        refine .cons ?_ (ih hrest)
        rw [hy.unique hstored]
        exact hsize

theorem of_mem_fieldsFrom {offset : ℕ} {l : FieldLayout} (h : l ∈ fieldsFrom m offset named) :
    ∃ x ∈ named, l.size = x.2.size ∧ l.ty = x.2.ty := by
  induction named generalizing offset with
  | nil => cases h
  | cons x named ih =>
    rcases List.mem_cons.mp h with rfl | h
    · exact ⟨x, mem_cons_self, rfl, rfl⟩
    · obtain ⟨y, hy, heq⟩ := ih h
      exact ⟨y, mem_cons_of_mem _ hy, heq⟩

theorem Stored.bitsFit {f' : Text × Threads.Ty} (h : Stored machine p f g) (h' : Stored unbounded p f' g) : g.2.ty.BitsFit := by
  rcases h.cases with hplain | ⟨id, l, -, heq⟩
  · rcases h'.cases with hplain' | ⟨id, l, -, heq⟩
    · exact (hplain.eq_iff hplain' rfl).2.2 rfl
    · exact absurd (congrArg Info.ty heq) (hplain.ty_ne id)
  · rw [heq]
    trivial

theorem fits_of_laidOut (h : LaidOut p id layout) (hvalue : Value (compute machine p) id (some layout)) : FitsWord p id := by
  induction h with
  | @intro id layout hfields hnested _ hapart hwithin _ _ ih =>
    obtain ⟨layout', hexact, hboth⟩ := both_of_value hvalue
    cases hboth with
    | enum => exact ⟨hexact, by decide, fun f hf => (nomatch hf), fun f hf => (nomatch hf)⟩
    | @struct named named' hnamed hnamed' htys =>
      have heq : named = named' := by
        refine named_eq hnamed htys hnamed' ((sizes_eq hnamed' hfields).imp fun x y h _ _ => h) (forall₂_of_mem htys ?_)
        intro x hx y _ hty id l hid hl
        obtain ⟨f, hf, -, hfty⟩ := mem_fieldsFrom (m := machine) 0 hx
        exact (ih f hf id (hfty.trans (hty.2.trans hid)) l hl hl).same hl
      subst heq
      have hvalid := stored_valid hnamed
      have hroom : Room (alignFrom 1 named) 0 named := by
        rw [← orderly_iff_room hvalid (by decide) (alignFrom_isAlign hvalid isAlign_one), orderly_iff]
        exact ⟨Nat.zero_le _, fun f hf => ⟨Nat.zero_le _, hwithin f hf⟩, hapart⟩
      rw [← placed_eq hvalid hroom] at hexact
      refine ⟨hexact, (placed_valid hvalid).1, ?_, ?_⟩
      · intro f hf
        obtain ⟨x, hx, -, hty⟩ := of_mem_fieldsFrom hf
        obtain ⟨_, hstored⟩ := stored_of_mem hnamed x hx
        obtain ⟨_, hstored'⟩ := stored_of_mem hnamed' x hx
        exact hty ▸ hstored.bitsFit hstored'
      · intro f hf id' hid
        obtain ⟨l, hl, -⟩ := hnested f hf id' hid
        exact ih f hf id' hid l hl hl

theorem fieldsFrom_stored {offset : ℕ} (h : List.Forall₂ (Stored unbounded p) fields named) :
    List.Forall₂ (fun f g => ∃ info, Stored unbounded p f (g.name, info) ∧ g.size = info.size ∧ g.ty = info.ty ∧
      info.align ∣ g.offset) fields (fieldsFrom unbounded offset named) := by
  induction h generalizing offset with
  | nil => exact .nil
  | @cons f x fields named hx _ ih => exact .cons ⟨x.2, hx, rfl, rfl, dvd_roundUp _ _⟩ ih

theorem laidOut_of_fits (hacyclic : Acyclic (compute machine p)) (h : FitsWord p id)
    (hvalue : Value (compute machine p) id (some layout)) : LaidOut p id layout := by
  induction h generalizing layout with
  | @intro id exact' hexact hsize hvectors hfits ih =>
    have hsame : ∀ s, Reached (compute machine p) none s →
        ∀ r, (∃ n s', layoutOf p n id s = some (r, s')) ↔ r = some layout := by
      intro s hs r
      rw [layoutOf, hs.search_iff hacyclic]
      exact ⟨fun hr => hr.unique hvalue, fun hr => hr ▸ hvalue⟩
    obtain ⟨layout', hvalue', hboth⟩ := both_of_value hvalue
    cases hvalue'.unique hexact
    cases hboth with
    | enum hfields =>
      exact ⟨hfields ▸ .nil, fun f hf => (nomatch hf), fun f hf => (nomatch hf), .nil, fun f hf => (nomatch hf), by decide,
        hsame⟩
    | @struct named _ hnamed hnamed' htys =>
      obtain ⟨rfl, hroom⟩ := room_of_fits hnamed hnamed' htys hsize hvectors
        fun f hf id l hid hl => (hfits f hf id hid).same hl
      have hvalid := stored_valid hnamed
      have horderly := (orderly_iff_room hvalid (by decide) (alignFrom_isAlign hvalid isAlign_one)).mpr hroom
      obtain ⟨-, hwithin, hapart⟩ := orderly_iff.mp horderly
      have heq := placed_eq hvalid hroom
      refine ⟨?_, ?_, ?_, hapart, fun f hf => (hwithin f hf).2, ?_, hsame⟩
      · rw [heq]
        exact fieldsFrom_stored hnamed'
      · intro f hf id' hid
        obtain ⟨x, hx, hxsize, hty⟩ := of_mem_fieldsFrom hf
        obtain ⟨_, hstored⟩ := stored_of_mem hnamed x hx
        rcases hstored.cases with hplain | ⟨id'', l, hl, hinfo⟩
        · exact absurd (hty.symm.trans hid) (hplain.ty_ne id')
        · rw [hinfo] at hxsize hty
          cases FieldTy.nominal.inj (hty.symm.trans hid)
          exact ⟨l, hl, hxsize⟩
      · intro f hf id' hid l hl
        exact ih f (heq ▸ hf) id' hid hl
      · rw [heq]
        exact dvd_roundUp _ _

end

/-- In an acyclic program, a layout that the computer gives is laid out right if and only if the exact sizes fit. -/
theorem aggregate_layout_iff {p : Program} (hacyclic : Acyclic (compute machine p)) {s : Table TypeId (Option TypeLayout)}
    (hs : Reached (compute machine p) none s) {n : ℕ} {id : TypeId} {layout : TypeLayout}
    {s' : Table TypeId (Option TypeLayout)} (h : layoutOf p n id s = some (some layout, s')) :
    LaidOut p id layout ↔ FitsWord p id := by
  have hvalue : Value (compute machine p) id (some layout) := (hs.search_iff hacyclic).mp ⟨n, s', h⟩
  exact ⟨fun hlaid => fits_of_laidOut hlaid hvalue, fun hfits => laidOut_of_fits hacyclic hfits hvalue⟩

def program (structs : List (Text × Threads.StructDecl)) : Program where
  host := Threads.asciiHost
  structs := structs
  enums := []
  memoryVariable _ := none
  substituteOther _ debug := debug
  hasKey _ := true

def single (fields : List (Text × Threads.Ty)) : Program := program [(['S'], ⟨[], fields⟩)]

theorem acyclic_single {fields : List (Text × Threads.Ty)} {r : Option TypeLayout} {r' : List Threads.Ty → Option TypeLayout}
    (hdecl : compute machine (single fields) (.decl ['S']) = .done r)
    (hinst : ∀ args, compute machine (single fields) (.inst ['S'] args) = .done (r' args)) : Acyclic (compute machine (single fields)) := by
  have hquiet : ∀ a, ∃ r, compute machine (single fields) a = .done r := by
    have hlookup : ∀ name, name ≠ ['S'] → (single fields).structs.lookup name = none := by
      intro name hname
      have hbeq : (name == ['S']) = false := beq_eq_false_iff_ne.mpr hname
      simp [single, program, List.lookup, hbeq]
    rintro (name | ⟨name, args⟩)
    all_goals
      by_cases hname : name = ['S']
      · subst hname
        first | exact ⟨_, hdecl⟩ | exact ⟨_, hinst args⟩
      · exact ⟨none, by simp only [compute, hlookup name hname] <;> rfl⟩
  intro q h
  obtain ⟨b, hb, -⟩ := Relation.TransGen.head'_iff.mp h
  obtain ⟨r, hr⟩ := hquiet q
  rw [hr] at hb
  cases hb

def byteAndWord : Program := single [(['a'], .scalar .i8), (['b'], .scalar .i32)]

theorem aggregate_layout_byteAndWord :
    LaidOut byteAndWord (.decl ['S']) ⟨8, 4, [⟨['a'], 0, 1, .scalar .i8⟩, ⟨['b'], 4, 4, .scalar .i32⟩]⟩ := by
  have hacyclic : Acyclic (compute machine byteAndWord) := acyclic_single rfl fun args => rfl
  apply (aggregate_layout_iff hacyclic .new (n := 1) rfl).mpr
  refine .intro ⟨1, rfl⟩ (by decide) ?_ ?_
  all_goals
    intro f hf
    rcases List.mem_cons.mp hf with rfl | hf
    · simp [FieldTy.BitsFit]
    · cases List.mem_singleton.mp hf
      simp [FieldTy.BitsFit]

def sixteenVectors : Program := single ((List.range 16).map fun k => ([Char.ofNat (97 + k)], .simd .f64 (2 ^ 57)))

/-- The end of the last field wraps to zero, and so the struct has no bytes. -/
theorem sixteenVectors_wraps : Acyclic (compute machine sixteenVectors) ∧ ∃ layout s',
    layoutOf sixteenVectors 1 (.decl ['S']) .new = some (some layout, s') ∧ layout.size = 0 ∧
      (∃ f ∈ layout.fields, f.offset + f.size = 2 ^ 64) ∧ ¬ LaidOut sixteenVectors (.decl ['S']) layout := by
  refine ⟨acyclic_single rfl fun args => rfl, _, _, rfl, by decide, by decide, fun h => ?_⟩
  obtain ⟨-, -, -, -, hwithin⟩ := h
  revert hwithin
  decide

section
variable {p : Program}

def nest : ℕ → Threads.Ty
  | 0 => .scalar .i32
  | k + 1 => .genericInstance (.struct ['G']) [nest k]

def growing : Program := program
  [(['G'], ⟨[.type ['T'] []], [(['n'], .genericInstance (.struct ['G']) [.genericInstance (.struct ['G']) [.generic ['T']]])]⟩),
    (['W'], ⟨[], [(['g'], .genericInstance (.struct ['G']) [nest 0])]⟩)]

end

end Vx.Layout
