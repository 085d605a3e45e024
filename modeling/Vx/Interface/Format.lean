import Vx.Interface.Metadata
import Vx.Lib.Format

namespace Vx.Interface

open Lib.Reader

namespace Layout

def word : Format Element := .word fun _ => true

def byte : Format Element := .tagged fun _ => .empty

def typeid : Format Element := .all [word, word, word, word]

def elementType : Format Element := .tagged fun
  | 0 | 1 | 2 | 3 | 4 | 5 | 6 | 7 | 8 | 9 | 10 | 11 | 12 | 13 | 14 | 15 | 16 | 18 | 19 | 20 | 21 => .empty
  | 17 => .text
  | _ => .bad

def fieldTy : Format Element := .tagged fun
  | 0 => elementType
  | 1 => typeid
  | 2 => .empty
  | 3 | 4 => .all [elementType, word]
  | _ => .bad

def typeDefinition : Format Element :=
  .all [typeid, .text, word, word, .table (some .field) (.all [.text, word, word, fieldTy]), .table (some .typeId) typeid]

def optTypeid : Format Element := .tagged fun
  | 0 => .empty
  | 1 => typeid
  | _ => .bad

def memorySpace : Format Element := .tagged fun
  | 0 | 1 | 2 | 3 | 4 | 5 => .empty
  | 6 => .text
  | _ => .bad

def optMemorySpace : Format Element := .tagged fun
  | 0 => .empty
  | 1 => memorySpace
  | _ => .bad

def topology : Format Element := .tagged fun
  | 0 | 1 | 2 | 4 | 5 | 6 => .empty
  | 3 => word
  | 7 => .text
  | _ => .bad

def optPlacement : Format Element := .tagged fun
  | 0 => .empty
  | 1 => .all [topology, memorySpace, word]
  | _ => .bad

def dim : Format Element := .tagged fun
  | 0 => .empty
  | 1 => .text
  | _ => .bad

def type : (depth : ℕ) → Format Element
  | 0 => .deep
  | depth + 1 => .tagged fun
    | 0 => elementType
    | 1 | 2 | 3 => .all [.text, optTypeid]
    | 4 => .all [type depth, memorySpace]
    | 5 => .all [type depth, optPlacement, byte]
    | 6 => .all [type depth, optMemorySpace, byte, word]
    | 7 => .all [type depth, topology]
    | 8 => type depth
    | 9 => .all [type depth, .table (some .type) (type depth)]
    | 10 => .all [byte, .table (some .type) (type depth), type depth]
    | 11 => .all [.table (some .type) (type depth), type depth]
    | 12 => .all [elementType, word]
    | 13 | 14 => .empty
    | 15 => .all [elementType, optPlacement, .table (some .dim) dim]
    | _ => .bad

def instruction : Format Element :=
  .all [.word fun raw => (decodeOpcode raw).isSome, word, word, word, word]

def body (depth : ℕ) : Format Element :=
  .all [typeid, .text, .table (some .type) (type depth), type depth, .table (some .instruction) instruction,
    .table (some .typeId) typeid]

def retValid : Format Element := .tagged fun
  | 0 => .empty
  | 1 | 2 => word
  | _ => .bad

def sigRecord (depth : ℕ) : Format Element := .all [.table none (type depth), type depth, byte, byte, retValid]

def structFields (depth : ℕ) : Format Element :=
  .all [.table none .text, .table none (.all [.text, type depth])]

def tables (depth : ℕ) : Format Element :=
  .all [.table none (.all [word, .table none (.all [.text, typeid])]),
    .table none typeDefinition,
    .table none (.all [.text, typeid, sigRecord depth]),
    .table none (.all [typeid, .text, typeid, sigRecord depth]),
    .table none (body depth),
    .table none (.all [typeid, structFields depth]),
    .table none (.all [.text, .numbered .variant .text])]

def interface (depth : ℕ) : Format Element :=
  .seq (.all [.literal vxlibMagic, .word (· = computeModuleHash vxlibFormatTag)]) (tables depth)

end Layout

section
variable {m : Machine Element} {α : Type} {p : Read α} {f : Format Element}

theorem follows_u64_bind {next : Pipeline.Word → Read α} {scan : BitVec 64 → List UInt8 → Scan Element}
    (h : ∀ w, Follows m (next w) (scan w)) : Follows m (Read.u64 >>= next) fun bytes => .word bytes scan :=
  Follows.word h

theorem follows_word_bind {allowed : BitVec 64 → Bool} {next : Pipeline.Word → Read α}
    {scan : List UInt8 → Scan Element} (h : ∀ w, allowed w = true → Follows m (next w) scan)
    (hfail : ∀ w, allowed w = false → Follows m (next w) fun _ => .malformed) :
    Follows m (Read.u64 >>= next) fun bytes => ((Format.word allowed).scan bytes).andThen scan := by
  have hword : Follows m (Read.u64 >>= next) fun bytes =>
      .word bytes fun w => if allowed w then scan else fun _ => .malformed := by
    refine follows_u64_bind fun w => ?_
    cases hw : allowed w with
    | true => exact h w hw
    | false => exact hfail w hw
  intro c hmemory
  have hscan : ((Format.word allowed).scan c.rest).andThen scan =
      .word c.rest fun w => if allowed w then scan else fun _ => .malformed := by
    simp only [Format.scan, Scan.word]
    split
    · split <;> simp [Scan.andThen, Scan.past, Scan.malformed]
    · rfl
  dsimp only
  rw [hscan]
  exact hword c hmemory

theorem follows_u64 : Follows m Read.u64 Layout.word.scan := by
  have h := follows_u64_bind (m := m) fun w => Follows.done w
  exact h

theorem follows_tagged {next : UInt8 → Read α} {cases : ℕ → Format Element}
    (h : ∀ t, Follows m (next t) (cases t.toNat).scan) : Follows m (Read.u8 >>= next) (Format.tagged cases).scan := by
  have htake : Follows m (.take 1 (fun pos => s!"vxlib: unexpected end of buffer (need 1 at {pos})")
      fun bytes => next (bytes.1.head (List.ne_nil_of_length_pos (by rw [bytes.2]; decide)))) _ :=
    Follows.take fun bytes => h _
  intro c hmemory
  have hc := htake c hmemory
  cases hrest : c.rest with
  | nil | cons =>
    simp [hrest] at hc
    exact hc

theorem follows_text (bytes : List UInt8) :
    Follows m (Read.text bytes) fun rest => if isText bytes then .past rest else .malformed := by
  unfold isText Read.text
  cases String.fromUTF8? ⟨bytes.toArray⟩ with
  | none => exact .fail _
  | some s => exact .done s

theorem follows_sym : Follows m Read.sym Format.text.scan := by
  have htake (count : BitVec 64) : Follows m (Read.take count.toNat >>= fun bytes => Read.text bytes.1) _ :=
    Follows.take fun bytes => follows_text bytes.1
  have hsym : Follows m (Read.u64 >>= fun count => Read.take count.toNat >>= fun bytes => Read.text bytes.1) _ :=
    follows_u64_bind htake
  intro c hmemory
  simp only [Format.scan, ite_and]
  exact hsym c hmemory

theorem follows_vec {kind : Element} (h : Follows m p f.scan) :
    Follows m (Read.vec kind p) (Format.table (some kind) f).scan :=
  follows_u64_bind fun w => (h.many w.toNat).reserve

theorem follows_grown (h : Follows m p f.scan) : Follows m (Read.grown p) (Format.table none f).scan :=
  follows_u64_bind fun w => h.many w.toNat

theorem follows_typeid : Follows m Read.typeid Layout.typeid.scan :=
  follows_u64.bind fun _ => follows_u64.bind fun _ => follows_u64.bind fun _ => follows_u64.bind fun _ => .done _

theorem follows_elementType : Follows m readElementType Layout.elementType.scan := by
  refine follows_tagged fun t => ?_
  generalize t.toNat = tag
  match tag with
  | 0 | 1 | 2 | 3 | 4 | 5 | 6 | 7 | 8 | 9 | 10 | 11 | 12 | 13 | 14 | 15 | 16 | 18 | 19 | 20 | 21 => exact .done _
  | 17 => exact follows_sym.map _
  | tag + 22 => exact .fail _

theorem follows_fieldTy : Follows m readFieldTy Layout.fieldTy.scan := by
  refine follows_tagged fun t => ?_
  generalize t.toNat = tag
  match tag with
  | 0 => exact follows_elementType.map _
  | 1 => exact follows_typeid.map _
  | 2 => exact .done _
  | 3 | 4 => exact follows_elementType.bind fun _ => follows_u64.bind fun _ => .done _
  | tag + 5 => exact .fail _

theorem follows_typeDefinition : Follows m readTypeDefinition Layout.typeDefinition.scan := by
  have hfield : Follows m readFieldLayout (Format.all [.text, Layout.word, Layout.word, Layout.fieldTy]).scan :=
    follows_sym.bind fun _ => follows_u64.bind fun _ => follows_u64.bind fun _ => follows_fieldTy.bind fun _ => .done _
  exact follows_typeid.bind fun _ => follows_sym.bind fun _ => follows_u64.bind fun _ => follows_u64.bind fun _ =>
    (follows_vec hfield).bind fun _ => (follows_vec follows_typeid).bind fun _ => .done _

theorem follows_optTypeid : Follows m readOptTypeid Layout.optTypeid.scan := by
  refine follows_tagged fun t => ?_
  generalize t.toNat = tag
  match tag with
  | 0 => exact .done _
  | 1 => exact follows_typeid.map _
  | tag + 2 => exact .fail _

theorem follows_memorySpace : Follows m readMemorySpace Layout.memorySpace.scan := by
  refine follows_tagged fun t => ?_
  generalize t.toNat = tag
  match tag with
  | 0 | 1 | 2 | 3 | 4 | 5 => exact .done _
  | 6 => exact follows_sym.map _
  | tag + 7 => exact .fail _

theorem follows_optMemorySpace : Follows m readOptMemorySpace Layout.optMemorySpace.scan := by
  refine follows_tagged fun t => ?_
  generalize t.toNat = tag
  match tag with
  | 0 => exact .done _
  | 1 => exact follows_memorySpace.map _
  | tag + 2 => exact .fail _

theorem follows_bool : Follows m readBool Layout.byte.scan := follows_tagged fun _ => .done _

theorem follows_retValid : Follows m readRetValid Layout.retValid.scan := by
  refine follows_tagged fun t => ?_
  generalize t.toNat = tag
  match tag with
  | 0 => exact .done _
  | 1 | 2 => exact follows_u64.map _
  | tag + 3 => exact .fail _

theorem follows_instruction : Follows m readHirInstruction Layout.instruction.scan := by
  refine follows_word_bind (fun raw hraw => ?_) fun raw hraw => ?_
  · obtain ⟨opcode, hopcode⟩ := Option.isSome_iff_exists.mp hraw
    simp only [hopcode]
    exact follows_u64.bind fun _ => follows_u64.bind fun _ => follows_u64.bind fun _ => follows_u64.bind fun _ => .done _
  · have hopcode : decodeOpcode raw = none := by simpa using hraw
    simp only [hopcode]
    exact .fail _

theorem follows_header : Follows m readHeader
    (Format.all [.literal vxlibMagic, .word (· = computeModuleHash vxlibFormatTag)]).scan := by
  have hstamp : Follows m
      (Read.u64 >>= fun stamp =>
        if stamp ≠ computeModuleHash vxlibFormatTag then
          .fail "vxlib: format version mismatch (stale or incompatible artifact)"
        else return ()) (Format.all [.word (· = computeModuleHash vxlibFormatTag)]).scan := by
    refine follows_word_bind (fun w hw => ?_) fun w hw => ?_
    · rw [if_neg (by simpa using hw)]
      exact .done ()
    · rw [if_pos (by simpa using hw)]
      exact .fail _
  refine Follows.literal rfl (fun magic hmagic => ?_) fun magic hmagic => ?_
  · simp only [Program.bind, hmagic, ne_eq, not_true_eq_false, if_false]
    exact hstamp
  · simp only [Program.bind, hmagic, ne_eq, not_false_eq_true, if_true]
    exact .fail _

theorem follows_variants (name : String) (n remaining filled : ℕ) (h : filled + remaining = n) (s : Slots n filled)
    (seen : List ℕ) (hseen : ∀ i : ℕ, s.slots[i]? = some none ↔ i < n ∧ i ∉ seen) :
    Follows m (readVariants name n remaining filled h s) (Scan.numbered Format.text.scan n remaining seen) := by
  induction remaining generalizing filled seen with
  | zero => exact .done _
  | succ remaining ih =>
    refine follows_sym.bind fun v => follows_u64_bind fun i => ?_
    have htaken (hslot : s.slots[i.toNat]? ≠ some none) : ¬ (i.toNat < n ∧ i.toNat ∉ seen) :=
      fun hfree => hslot ((hseen i.toNat).mpr hfree)
    -- A number out of range and one that is taken are refused with different messages.
    dsimp only
    split
    next hslot =>
      simp only [if_neg (htaken (by simp [hslot]))]
      exact .fail _
    next hslot =>
      simp only [if_neg (htaken (by simp [hslot]))]
      exact .fail _
    next hslot =>
      have hfree := (hseen i.toNat).mp hslot
      simp only [if_pos hfree]
      refine ih (filled + 1) (by omega) (s.place i.toNat v hslot) (i.toNat :: seen) fun j => ?_
      have hj := hseen j
      simp only [Slots.place, List.getElem?_set, List.mem_cons, not_or]
      by_cases hij : i.toNat = j
      · simp [hij]
      · simp [hij, hj, Ne.symm hij]

theorem follows_enum : Follows m readEnum (Format.all [.text, .numbered .variant .text]).scan := by
  refine follows_sym.bind fun name => ?_
  refine Follows.bind (p := Read.u64 >>= fun count => Read.withCapacity .variant count.toNat >>= fun _ =>
    readVariants name count.toNat count.toNat 0 (Nat.zero_add _) (.empty count.toNat)) ?_ fun _ => .done _
  refine follows_u64_bind fun count => (follows_variants name _ _ _ _ _ [] fun i => ?_).reserve
  simp [Slots.empty, List.getElem?_replicate]

variable {E : Type}

theorem follows_topology : Follows m (readTopology (E := E)) Layout.topology.scan := by
  refine follows_tagged fun t => ?_
  generalize t.toNat = tag
  match tag with
  | 0 | 1 | 2 | 4 | 5 | 6 => exact .done _
  | 3 => exact follows_u64.map _
  | 7 => exact follows_sym.map _
  | tag + 8 => exact .fail _

theorem follows_optPlacement : Follows m (readOptPlacement (E := E)) Layout.optPlacement.scan := by
  refine follows_tagged fun t => ?_
  generalize t.toNat = tag
  match tag with
  | 0 => exact .done _
  | 1 => exact follows_topology.bind fun _ => follows_memorySpace.bind fun _ => follows_u64.bind fun _ => .done _
  | tag + 2 => exact .fail _

theorem follows_dim : Follows m (readDim (E := E)) Layout.dim.scan := by
  refine follows_tagged fun t => ?_
  generalize t.toNat = tag
  match tag with
  | 0 => exact .done _
  | 1 => exact follows_sym.map _
  | tag + 2 => exact .fail _

theorem follows_type (depth : ℕ) : Follows m (readType (E := E) depth) (Layout.type depth).scan := by
  induction depth with
  | zero => exact .exhausted
  | succ depth ih =>
    refine follows_tagged fun t => ?_
    generalize t.toNat = tag
    match tag with
    | 0 => exact follows_elementType.map _
    | 1 | 2 | 3 => exact follows_sym.bind fun _ => follows_optTypeid.bind fun _ => .done _
    | 4 => exact ih.bind fun _ => follows_memorySpace.bind fun _ => .done _
    | 5 => exact ih.bind fun _ => follows_optPlacement.bind fun _ => follows_bool.bind fun _ => .done _
    | 6 =>
      exact ih.bind fun _ => follows_optMemorySpace.bind fun _ => follows_bool.bind fun _ => follows_u64.bind fun _ => .done _
    | 7 => exact ih.bind fun _ => follows_topology.bind fun _ => .done _
    | 8 => exact ih.map _
    | 9 => exact ih.bind fun _ => (follows_vec ih).bind fun _ => .done _
    | 10 => exact follows_bool.bind fun _ => (follows_vec ih).bind fun _ => ih.bind fun _ => .done _
    | 11 => exact (follows_vec ih).bind fun _ => ih.bind fun _ => .done _
    | 12 => exact follows_elementType.bind fun _ => follows_u64.bind fun _ => .done _
    | 13 | 14 => exact .done _
    | 15 =>
      exact follows_elementType.bind fun _ => follows_optPlacement.bind fun _ => (follows_vec follows_dim).bind fun _ => .done _
    | tag + 16 => exact .fail _

theorem follows_fnBody (depth : ℕ) : Follows m (readFnBody (E := E) depth) (Layout.body depth).scan :=
  follows_typeid.bind fun _ => follows_sym.bind fun _ => (follows_vec (follows_type depth)).bind fun _ =>
    (follows_type depth).bind fun _ => (follows_vec follows_instruction).bind fun _ =>
    (follows_vec follows_typeid).bind fun _ => .done _

theorem follows_sigRecord (depth : ℕ) (gid : Pipeline.TypeId) :
    Follows m (readSigRecord (E := E) depth gid) (Layout.sigRecord depth).scan :=
  (follows_grown (follows_type depth)).bind fun _ => (follows_type depth).bind fun _ =>
    Follows.bind (follows_tagged fun _ => .done _) fun _ => follows_bool.bind fun _ => follows_retValid.bind fun _ => .done _

theorem follows_structFields (depth : ℕ) : Follows m (readStructFields (E := E) depth) (Layout.structFields depth).scan := by
  have hfield : Follows m (readField (E := E) depth) (Format.all [.text, Layout.type depth]).scan :=
    follows_sym.bind fun _ => (follows_type depth).bind fun _ => .done _
  exact (follows_grown follows_sym).bind fun _ => (follows_grown hfield).bind fun _ => .done _

theorem follows_tables (depth : ℕ) : Follows m (readTables (E := E) depth) (Layout.tables depth).scan := by
  have hentry : Follows m readModuleEntry (Format.all [.text, Layout.typeid]).scan :=
    follows_sym.bind fun _ => follows_typeid.bind fun _ => .done _
  have hmodule : Follows m readModule (Format.all [Layout.word, .table none (.all [.text, Layout.typeid])]).scan :=
    follows_u64.bind fun _ => (follows_grown hentry).bind fun _ => .done _
  have hfn : Follows m (readFn (E := E) depth) (Format.all [.text, Layout.typeid, Layout.sigRecord depth]).scan :=
    follows_sym.bind fun _ => follows_typeid.bind fun gid => (follows_sigRecord depth gid).bind fun _ => .done _
  have hmethod : Follows m (readMethod (E := E) depth)
      (Format.all [Layout.typeid, .text, Layout.typeid, Layout.sigRecord depth]).scan :=
    follows_typeid.bind fun _ => follows_sym.bind fun _ => follows_typeid.bind fun gid =>
      (follows_sigRecord depth gid).bind fun _ => .done _
  have hstruct : Follows m (readStruct (E := E) depth) (Format.all [Layout.typeid, Layout.structFields depth]).scan :=
    follows_typeid.bind fun _ => (follows_structFields depth).bind fun _ => .done _
  exact (follows_grown hmodule).bind fun _ => (follows_grown follows_typeDefinition).bind fun _ =>
    (follows_grown hfn).bind fun _ => (follows_grown hmethod).bind fun _ => (follows_grown (follows_fnBody depth)).bind fun _ =>
    (follows_grown hstruct).bind fun _ => (follows_grown follows_enum).bind fun _ => .done _

theorem follows_registryInterface (stack : ℕ) :
    Follows m (readRegistryInterface (E := E) stack) (Layout.interface stack).scan :=
  follows_header.bind fun _ => follows_tables stack

end

end Vx.Interface
