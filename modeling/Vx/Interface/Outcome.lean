import Vx.Interface.Exchange
import Vx.Interface.Format

namespace Vx.Interface

open Option AList
open Pipeline (TypeId Word)
open Lib.Reader

variable {E : Type} {m : Machine Element}

def tableBytes (reg : Registry E) : List UInt8 :=
  let modules := sorted (fun a b => decide (a ≤ b)) reg.moduleIndices
  let defs := (sorted wordsLe reg.layouts.table).map Prod.snd
  let enums := sorted nameLe reg.enumVariants
  (Write.len modules.length ++ modules.flatMap writeModule) ++
    ((Write.len defs.length ++ defs.flatMap writeTypeDefinition) ++
      ((emitTable "fn_sigs" encodeFn (sorted nameLe reg.fnSigs)).1 ++
        ((emitTable "methods" (encodeMethod reg) (sorted methodLe reg.methods)).1 ++
          ((emitTable "bodies" encodeBody (sorted wordsLe reg.bodies)).1 ++
            ((emitTable "structs" (encodeStruct reg) (sorted wordsLe reg.structs)).1 ++
              (Write.len enums.length ++ enums.flatMap writeEnum))))))

variable (reg : Registry E)

theorem serialize_eq : serializeRegistryInterface reg =
      (vxlibMagic ++ Write.u64 (computeModuleHash vxlibFormatTag)) ++ tableBytes reg := by
  simp only [serializeRegistryInterface, serializeRegistryInterfaceReporting, tableBytes, List.append_assoc]

variable {stack : ℕ}

theorem restores_tables (reg : Registry E) (hstack : reg.Within stack)
    (hdecodable : reg.Decodable) : Restores m (readTables stack) (tableBytes reg) reg.returned := by
  unfold readTables tableBytes
  refine (restores_modules reg).bind ?_
  refine (restores_layouts reg).bind ?_
  refine (restores_fns reg hstack).bind ?_
  refine (restores_methods reg hstack).bind ?_
  refine (restores_bodies reg hstack hdecodable).bind ?_
  refine (restores_structs reg hstack).bind ?_
  exact (restores_enums reg).map

theorem rejects_tables (reg : Registry E) (hstack : reg.Within stack)
    (hdecodable : ¬ reg.Decodable) : Rejects m (readTables (E := E) stack) (tableBytes reg) := by
  unfold readTables tableBytes
  refine (restores_modules reg).bind_rejects ?_
  refine (restores_layouts reg).bind_rejects ?_
  refine (restores_fns reg hstack).bind_rejects ?_
  refine (restores_methods reg hstack).bind_rejects ?_
  exact (rejects_bodies reg hstack hdecodable).bind _ _

theorem restores_header : Restores m readHeader (vxlibMagic ++ Write.u64 (computeModuleHash vxlibFormatTag)) () := by
  have hmagic : Restores m (Read.take 4) vxlibMagic ⟨vxlibMagic, rfl⟩ := fun _ => .take _ ⟨vxlibMagic, rfl⟩
  unfold readHeader
  refine hmagic.bind ?_
  rw [if_neg (by simp), ← List.append_nil (Write.u64 _)]
  refine (restores_u64 _).bind ?_
  rw [if_neg (by simp)]
  exact .done ()

structure Returned (reg reg' : Registry E) (report : InterfaceEmitReport) : Prop where
  modules : ∀ hash, hash ∈ reg'.moduleIndices ↔ hash ∈ reg.moduleIndices
  names : ∀ hash name, (reg'.moduleIndices.lookup hash).bind (fun names => names.lookup name) =
    (reg.moduleIndices.lookup hash).bind fun names => names.lookup name
  layouts : ∀ id, reg'.layouts.table.lookup id = reg.layouts.table.lookup id
  enums : ∀ name, reg'.enumVariants.lookup name = reg.enumVariants.lookup name
  reported : ∃ fns methods bodies structs enums, report.tables = [fns, methods, bodies, structs, enums] ∧
    TableReturned encodeFn FnSig.written reg.fnSigs reg'.fnSigs fns ∧
    TableReturned (encodeMethod reg) FnSig.written reg.methods reg'.methods methods ∧
    TableReturned encodeBody FnBody.written reg.bodies reg'.bodies bodies ∧
    TableReturned (encodeStruct reg) StructFields.written reg.structs reg'.structs structs ∧
    enums.skipped = []

theorem lookup_returned_modules (hash : Word) : reg.returned.moduleIndices.lookup hash =
      (reg.moduleIndices.lookup hash).map fun names => .ofList (sorted nameLe names) := by
  ext names
  simp only [Registry.returned]
  rw [lookup_ofList, map_eq_some_iff]
  · simp only [List.mem_map, Prod.mk.injEq]
    constructor
    · rintro ⟨⟨hash', before⟩, hmem, rfl, rfl⟩
      exact ⟨before, (mem_sorted ..).mp hmem, rfl⟩
    · rintro ⟨before, hlookup, rfl⟩
      exact ⟨(hash, before), (mem_sorted ..).mpr hlookup, rfl, rfl⟩
  · rw [List.map_map]
    exact nodup_sorted ..

theorem lookup_returned_layouts (id : TypeId) : reg.returned.layouts.table.lookup id = reg.layouts.table.lookup id := by
  have hkeyed : ((sorted wordsLe reg.layouts.table).map Prod.snd).map (fun d => (d.id, d)) =
      sorted wordsLe reg.layouts.table := by
    rw [List.map_map]
    conv_rhs => rw [← List.map_id (sorted wordsLe reg.layouts.table)]
    refine List.map_congr_left fun entry hentry => ?_
    have := reg.layouts.keyed _ _ ((mem_sorted ..).mp hentry)
    exact Prod.ext this rfl
  simp only [Registry.returned, table_insertAll, hkeyed]
  exact lookup_ofList_sorted ..

theorem returned_returned : Returned reg reg.returned (serializeRegistryInterfaceReporting reg).2 where
  modules hash := by
    rw [← lookup_isSome, ← lookup_isSome, lookup_returned_modules, isSome_map]
  names hash name := by
    rw [lookup_returned_modules]
    cases reg.moduleIndices.lookup hash with
    | none => rfl
    | some names => exact lookup_ofList_sorted nameLe names name
  layouts := lookup_returned_layouts reg
  enums name := lookup_ofList_sorted ..
  reported := ⟨_, _, _, _, _, rfl, emitTable_returned .., emitTable_returned .., emitTable_returned ..,
    emitTable_returned .., rfl⟩

theorem deserialize_of_decodable (reg : Registry E)
    (hstack : reg.Within stack) (hfits : Fits m (serializeRegistryInterface reg).length) (hdecodable : reg.Decodable) :
    ∃ reserved, deserializeRegistryInterface m stack (serializeRegistryInterface reg) =
      (.ok reg.returned, ⟨(serializeRegistryInterface reg).length, [], reserved⟩) := by
  have hrun : Restores m (readRegistryInterface stack) (serializeRegistryInterface reg) reg.returned := by
    rw [serialize_eq]
    exact restores_header.bind (restores_tables reg hstack hdecodable)
  obtain ⟨reserved, hreserved⟩ := hrun hfits 0 [] []
  refine ⟨reserved, ?_⟩
  rw [List.append_nil, Nat.zero_add] at hreserved
  exact hreserved

theorem deserialize_of_not_decodable (reg : Registry E)
    (hstack : reg.Within stack) (hfits : Fits m (serializeRegistryInterface reg).length)
    (hdecodable : ¬ reg.Decodable) :
    ∃ message c, deserializeRegistryInterface (E := E) m stack (serializeRegistryInterface reg) =
      (.error (.err message), c) := by
  have hrun : Rejects m (readRegistryInterface (E := E) stack) (serializeRegistryInterface reg) := by
    rw [serialize_eq]
    exact restores_header.bind_rejects (rejects_tables reg hstack hdecodable)
  obtain ⟨message, c, h⟩ := hrun hfits 0 [] []
  rw [List.append_nil] at h
  exact ⟨message, c, h⟩

/-- The exchange of a registry works exactly when the reader knows the opcodes of the bodies. -/
theorem deserialize_serialize (reg : Registry E) (stack : ℕ)
    (hstack : reg.Within stack) (hfits : Fits m (serializeRegistryInterface reg).length) :
    (∃ reg', (deserializeRegistryInterface m stack (serializeRegistryInterface reg)).1 = .ok reg' ∧
        Returned reg reg' (serializeRegistryInterfaceReporting reg).2) ↔ reg.Decodable := by
  constructor
  · rintro ⟨reg', hok, -⟩
    by_contra hdecodable
    obtain ⟨message, c, herr⟩ := deserialize_of_not_decodable reg hstack hfits hdecodable
    rw [herr] at hok
    cases hok
  · intro hdecodable
    obtain ⟨reserved, hok⟩ := deserialize_of_decodable reg hstack hfits hdecodable
    exact ⟨reg.returned, by rw [hok], returned_returned reg⟩

def machine64 : Machine Element := ⟨fun _ => 128, 2 ^ 63 - 1⟩

def oneBody (op : Opcode) : Registry Unit :=
  { Registry.empty with
    bodies := AList.singleton ⟨#v[1, 2, 0, 0]⟩ ⟨"log", [], .scalar .i32, [⟨op, 0, 0, 0, 0⟩], []⟩ }

def stopOf {α : Type} : Except Stop α → Option Stop
  | .error stop => some stop
  | .ok _ => none

/-- A function that prints to a stream has a body that is written and not read. -/
theorem printStream_body_rejected :
    let reg := oneBody .printStream
    (serializeRegistryInterfaceReporting reg).2.tables.map TableReport.encoded = [0, 0, 1, 0, 0] ∧
      stopOf (deserializeRegistryInterface (E := Unit) machine64 8 (serializeRegistryInterface reg)).1 =
        some (.err "vxlib: bad opcode discriminant 72") := by
  decide +kernel

theorem oneBody_within (op : Opcode) : (oneBody op).Within 1 where
  fnSigs name sig h := by cases h
  methods key sig h := by cases h
  structs gid sf h := by cases h
  bodies gid body h := by
    have hmem := AList.mem_lookup_iff.mp h
    simp only [oneBody, singleton_entries, List.mem_singleton] at hmem
    cases hmem
    exact le_rfl

theorem deserialize_serialize_ret :
    ∃ reg', (deserializeRegistryInterface machine64 1 (serializeRegistryInterface (oneBody .ret))).1 = .ok reg' ∧
      Returned (oneBody .ret) reg' (serializeRegistryInterfaceReporting (oneBody .ret)).2 := by
  have hlength : (serializeRegistryInterface (oneBody .ret)).length < 2 ^ 32 := by decide +kernel
  have hfits : Fits machine64 (serializeRegistryInterface (oneBody .ret)).length :=
    ⟨by omega, fun kind => by simp only [machine64]; omega⟩
  refine (deserialize_serialize (oneBody .ret) 1 (oneBody_within _) hfits).mpr ?_
  intro gid body bytes h _ ins hins
  have hmem := AList.mem_lookup_iff.mp h
  simp only [oneBody, singleton_entries, List.mem_singleton] at hmem
  cases hmem
  simp only [List.mem_singleton] at hins
  subst hins
  rfl

theorem deserialize_cut (reg : Registry E) {stack : ℕ} (hstack : reg.Within stack)
    (hfits : Fits m (serializeRegistryInterface reg).length) (part rest : List UInt8)
    (h : serializeRegistryInterface reg = part ++ rest) (hrest : rest ≠ []) :
    ∃ message c, deserializeRegistryInterface (E := E) m stack part = (.error (.err message), c) := by
  rcases run_append m (readRegistryInterface (E := E) stack) 0 part rest [] [] with herr | hsame
  · exact herr
  obtain ⟨result, c, reserved, hpart, hfull⟩ := hsame
  rw [← h] at hfull
  by_cases hdecodable : reg.Decodable
  · obtain ⟨reserved', hok⟩ := deserialize_of_decodable reg hstack hfits hdecodable
    rw [deserializeRegistryInterface, hfull] at hok
    simp only [Prod.mk.injEq, Cursor.mk.injEq, List.append_eq_nil_iff] at hok
    exact absurd hok.2.2.1.2 hrest
  · obtain ⟨message, c', herr⟩ := deserialize_of_not_decodable reg hstack hfits hdecodable
    rw [deserializeRegistryInterface, hfull] at herr
    obtain ⟨rfl, -⟩ := Prod.mk.inj herr
    exact ⟨message, c, hpart⟩

/-- Each count that a table is reserved by is at most what the rest of the input can supply, and the types nest
no deeper than the stack. -/
def Supplies (stack : ℕ) (bytes : List UInt8) : Prop :=
  (∀ r ∈ ((Layout.interface stack).scan bytes).counts, r.Supplied) ∧ ((Layout.interface stack).scan bytes).deep = false

/-- Damaged input is rejected without harm exactly when it supplies what it announces. -/
theorem deserialize_damaged (m : Machine Element) (stack : ℕ) :
    (∀ (reg : Registry E) (part rest : List UInt8), reg.Within stack →
        Fits m (serializeRegistryInterface reg).length → serializeRegistryInterface reg = part ++ rest → rest ≠ [] →
        ∃ message c, deserializeRegistryInterface (E := E) m stack part = (.error (.err message), c)) ∧
      ∀ bytes : List UInt8, (∀ kind, bytes.length * m.size kind ≤ m.allocation) →
        (Clean (deserializeRegistryInterface (E := E) m stack bytes) ↔ Supplies stack bytes) :=
  ⟨fun reg part rest hstack hfits h hrest => deserialize_cut reg hstack hfits part rest h hrest,
    fun _ hmemory => (follows_registryInterface stack).clean_iff hmemory⟩

def fieldCount (count : Word) : List UInt8 :=
  vxlibMagic ++ Write.u64 (computeModuleHash vxlibFormatTag) ++ Write.len 0 ++ Write.len 1 ++
    Write.typeid ⟨#v[0, 0, 0, 0]⟩ ++ Write.sym "" ++ Write.u64 0 ++ Write.u64 0 ++ Write.u64 count

def nestedParam (depth : ℕ) : List UInt8 :=
  vxlibMagic ++ Write.u64 (computeModuleHash vxlibFormatTag) ++ Write.len 0 ++ Write.len 0 ++ Write.len 1 ++
    Write.sym "" ++ Write.typeid ⟨#v[0, 0, 0, 0]⟩ ++ Write.len 1 ++ List.replicate depth 8

/-- A count that overflows the capacity, a count that reserves a table of two to the forty fields with no byte
left, and a type that nests deeper than the stack. -/
theorem damaged_input_crashes :
    stopOf (deserializeRegistryInterface (E := Unit) machine64 8 (fieldCount (BitVec.allOnes 64))).1 =
        some .capacityOverflow ∧
      (deserializeRegistryInterface (E := Unit) machine64 8 (fieldCount (BitVec.ofNat 64 (2 ^ 40)))).2.reserved.map
        (fun r => (r.count, r.remaining)) = [(2 ^ 40, 0)] ∧
      stopOf (deserializeRegistryInterface (E := Unit) machine64 8 (nestedParam 9)).1 = some .stackOverflow := by
  decide

/-- A layout that announces no field is read to its end, where the count of its dependencies is missing. -/
theorem deserialize_damaged_noField :
    Clean (deserializeRegistryInterface (E := Unit) machine64 8 (fieldCount 0)) ∧
      ((Layout.interface 8).scan (fieldCount 0)).counts.map (fun r => (r.count, r.remaining)) = [(0, 0)] := by
  have hcounts : ((Layout.interface 8).scan (fieldCount 0)).counts.map (fun r => (r.count, r.remaining)) = [(0, 0)] := by
    decide
  refine ⟨((deserialize_damaged machine64 8).2 _ fun _ => show (fieldCount 0).length * 128 ≤ 2 ^ 63 - 1 by decide).mpr ⟨?_, by decide⟩, hcounts⟩
  decide

end Vx.Interface
