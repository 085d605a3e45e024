import Vx.Interface.RoundTrip

namespace Vx.Interface

open List Option AList
open Pipeline (TypeId Word)
open Lib.Reader

section
variable {K V : Type} [DecidableEq K] (le : K → K → Bool) (table : Table K V)

theorem mem_sorted (k : K) (v : V) : (k, v) ∈ sorted le table ↔ table.lookup k = some v := by
  rw [sorted, mem_mergeSort, ← mem_def, mem_lookup_iff]
  simp only [List.mem_map, Prod.mk.injEq]
  constructor
  · rintro ⟨⟨k', v'⟩, h, rfl, rfl⟩
    exact h
  · exact fun h => ⟨⟨k, v⟩, h, rfl, rfl⟩

theorem nodup_sorted : ((sorted le table).map Prod.fst).Nodup := by
  have hperm := (mergeSort_perm (table.entries.map fun entry => (entry.1, entry.2)) fun a b => le a.1 b.1).map Prod.fst
  refine hperm.nodup_iff.mpr ?_
  rw [List.map_map]
  exact table.nodupKeys

theorem length_sorted : (sorted le table).length = table.entries.length := by
  rw [sorted, length_mergeSort, length_map]

theorem lookup_insertAll_of_notMem (entries : List (K × V)) (table : Table K V) (k : K)
    (h : k ∉ entries.map Prod.fst) : (table.insertAll entries).lookup k = table.lookup k := by
  induction entries generalizing table with
  | nil => rfl
  | cons entry entries ih =>
    simp only [map_cons, mem_cons, not_or] at h
    exact (ih _ h.2).trans (lookup_insert_ne h.1)

theorem lookup_insertAll_of_mem (entries : List (K × V)) (table : Table K V) (k : K) (v : V)
    (hnodup : (entries.map Prod.fst).Nodup) (h : (k, v) ∈ entries) : (table.insertAll entries).lookup k = some v := by
  induction entries generalizing table with
  | nil => cases h
  | cons entry entries ih =>
    rw [map_cons, nodup_cons] at hnodup
    rcases List.mem_cons.mp h with rfl | h
    · exact (lookup_insertAll_of_notMem entries _ k hnodup.1).trans (lookup_insert _)
    · exact ih _ hnodup.2 h

theorem lookup_ofList {entries : List (K × V)} (hnodup : (entries.map Prod.fst).Nodup) (k : K) (v : V) :
    (Table.ofList entries).lookup k = some v ↔ (k, v) ∈ entries := by
  refine ⟨fun h => ?_, lookup_insertAll_of_mem entries ∅ k v hnodup⟩
  by_cases hk : k ∈ entries.map Prod.fst
  · obtain ⟨⟨k', v'⟩, hmem, rfl⟩ := List.mem_map.mp hk
    have h' := lookup_insertAll_of_mem entries ∅ k' v' hnodup hmem
    rw [Table.ofList, h', Option.some.injEq] at h
    exact h ▸ hmem
  · rw [Table.ofList, lookup_insertAll_of_notMem entries ∅ k hk] at h
    cases h

theorem lookup_ofList_sorted (k : K) : (Table.ofList (sorted le table)).lookup k = table.lookup k := by
  ext v
  rw [lookup_ofList (nodup_sorted le table), mem_sorted]

theorem table_insertAll (defs : List TypeDefinition) (layouts : Layouts) :
    (defs.foldl Layouts.insert layouts).table = layouts.table.insertAll (defs.map fun d => (d.id, d)) := by
  induction defs generalizing layouts with
  | nil => rfl
  | cons d defs ih => exact ih (layouts.insert d)

end

section
variable {α β : Type} {m : Machine Element} (encode : α → Except (String × String) (List UInt8)) (entries : List α)

def isWritten (entry : α) : Bool := (encode entry).isOk

def encoded (entry : α) : List UInt8 := (encode entry).toOption.getD []

theorem isWritten_iff (entry : α) : isWritten encode entry = true ↔ encode entry = .ok (encoded encode entry) := by
  unfold isWritten encoded
  cases encode entry <;> simp [Except.isOk, Except.toBool, Except.toOption]

theorem emitTable_bytes (table : String) :
    (emitTable table encode entries).1 = Write.len (entries.filter (isWritten encode)).length ++
      (entries.filter (isWritten encode)).flatMap (encoded encode) := by
  have hlist : entries.filterMap (fun entry => (encode entry).toOption) =
      (entries.filter (isWritten encode)).map (encoded encode) := by
    induction entries with
    | nil => rfl
    | cons entry entries ih =>
      cases h : encode entry <;> simp [isWritten, encoded, h, Except.isOk, Except.toBool, Except.toOption, ← ih]
  rw [emitTable, hlist, length_map, flatMap_def]

theorem length_written_le (h : ∀ entry ∈ entries, ∀ bytes, encode entry = .ok bytes → 0 < bytes.length) :
    (entries.filter (isWritten encode)).length ≤
      ((entries.filter (isWritten encode)).flatMap (encoded encode)).length := by
  refine length_le_flatMap _ fun entry hentry => ?_
  obtain ⟨hmem, hwritten⟩ := List.mem_filter.mp hentry
  exact h entry hmem _ ((isWritten_iff encode entry).mp hwritten)

theorem restores_emitTable (table : String) (item : Read β) (value : α → β)
    (hpos : ∀ entry ∈ entries, ∀ bytes, encode entry = .ok bytes → 0 < bytes.length)
    (h : ∀ entry ∈ entries, ∀ bytes, encode entry = .ok bytes → Restores m item bytes (value entry)) :
    Restores m (Read.grown item) (emitTable table encode entries).1
      ((entries.filter (isWritten encode)).map value) := by
  rw [emitTable_bytes]
  refine .grown (length_written_le encode entries hpos) (.many value fun entry hentry => ?_)
  obtain ⟨hmem, hwritten⟩ := List.mem_filter.mp hentry
  exact h entry hmem _ ((isWritten_iff encode entry).mp hwritten)

theorem rejects_emitTable (table : String) (item : Read β) (value : α → β)
    (hpos : ∀ entry ∈ entries, ∀ bytes, encode entry = .ok bytes → 0 < bytes.length)
    (h : ∀ entry ∈ entries, ∀ bytes, encode entry = .ok bytes →
      Restores m item bytes (value entry) ∨ Rejects m item bytes)
    (hrejects : ∃ entry ∈ entries, ∃ bytes, encode entry = .ok bytes ∧ Rejects m item bytes) :
    Rejects m (Read.grown item) (emitTable table encode entries).1 := by
  rw [emitTable_bytes]
  refine .grown (length_written_le encode entries hpos) (.many value (fun entry hentry => ?_) ?_)
  · obtain ⟨hmem, hwritten⟩ := List.mem_filter.mp hentry
    exact h entry hmem _ ((isWritten_iff encode entry).mp hwritten)
  obtain ⟨entry, hmem, bytes, hok, hrejects⟩ := hrejects
  have hbytes : encoded encode entry = bytes := by simp [encoded, hok, Except.toOption]
  have hwritten : isWritten encode entry = true := by rw [isWritten_iff, hbytes, hok]
  exact ⟨entry, List.mem_filter.mpr ⟨hmem, hwritten⟩, hbytes ▸ hrejects⟩

structure TableReturned {K V : Type} [DecidableEq K] (encode : K × V → Except (String × String) (List UInt8))
    (written : V → V) (before after : Table K V) (report : TableReport) : Prop where
  entries : ∀ k v, after.lookup k = some v ↔
    ∃ v₀ bytes, before.lookup k = some v₀ ∧ encode (k, v₀) = .ok bytes ∧ v = written v₀
  skipped : ∀ skip, skip ∈ report.skipped ↔ ∃ k v₀, before.lookup k = some v₀ ∧ encode (k, v₀) = .error skip
  counted : report.encoded + report.skipped.length = before.entries.length

theorem emitTable_returned {K V : Type} [DecidableEq K] (encode : K × V → Except (String × String) (List UInt8))
    (written : V → V) (table : String) (le : K → K → Bool) (before : Table K V) : TableReturned encode written before
      (.ofList (((sorted le before).filter (isWritten encode)).map fun entry => (entry.1, written entry.2)))
      (emitTable table encode (sorted le before)).2 where
  entries k v := by
    rw [lookup_ofList]
    · simp only [List.mem_map, mem_filter, Prod.mk.injEq]
      constructor
      · rintro ⟨⟨k', v₀⟩, ⟨hmem, hwritten⟩, rfl, rfl⟩
        exact ⟨v₀, _, (mem_sorted le before k' v₀).mp hmem, (isWritten_iff encode _).mp hwritten, rfl⟩
      · rintro ⟨v₀, bytes, hlookup, hok, rfl⟩
        refine ⟨(k, v₀), ⟨(mem_sorted le before k v₀).mpr hlookup, ?_⟩, rfl, rfl⟩
        simp [isWritten, hok, Except.isOk, Except.toBool]
    · rw [List.map_map]
      exact (nodup_sorted le before).sublist (List.filter_sublist.map _)
  skipped skip := by
    simp only [emitTable, mem_filterMap]
    constructor
    · rintro ⟨⟨k, v₀⟩, hmem, hskip⟩
      refine ⟨k, v₀, (mem_sorted le before k v₀).mp hmem, ?_⟩
      cases h : encode (k, v₀) <;> simp_all
    · rintro ⟨k, v₀, hlookup, hskip⟩
      exact ⟨(k, v₀), (mem_sorted le before k v₀).mpr hlookup, by simp [hskip]⟩
  counted := by
    rw [← length_sorted le before]
    simp only [emitTable]
    induction sorted le before with
    | nil => rfl
    | cons entry entries ih =>
      cases h : encode entry <;> simp_all [Except.toOption] <;> omega

variable {E : Type} {bytes : List UInt8}

theorem encodeFn_eq_ok {entry : String × FnSig E} (h : encodeFn entry = .ok bytes) :
    ∃ record, encodeSigRecord entry.2 = .ok record ∧
      bytes = Write.sym entry.1 ++ (Write.typeid entry.2.gid ++ record) := by
  unfold encodeFn at h
  split at h
  next record hrecord =>
    cases h
    exact ⟨record, hrecord, append_assoc ..⟩
  next => cases h

variable {reg : Registry E} {entry : (TypeId × String) × FnSig E}

theorem encodeMethod_eq_ok (h : encodeMethod reg entry = .ok bytes) : ∃ record, encodeSigRecord entry.2 = .ok record ∧
      bytes = Write.typeid entry.1.1 ++ (Write.sym entry.1.2 ++ (Write.typeid entry.2.gid ++ record)) := by
  unfold encodeMethod at h
  split at h
  next record hrecord =>
    cases h
    exact ⟨record, hrecord, by simp only [append_assoc]⟩
  next => cases h

theorem encodeBody_eq_ok {entry : TypeId × FnBody E} :
    encodeBody entry = .ok bytes ↔ writeFnBody entry.1 entry.2 = .ok bytes := by
  unfold encodeBody
  split <;> simp_all

theorem encodeStruct_eq_ok {entry : TypeId × StructFields E} (h : encodeStruct reg entry = .ok bytes) :
    ∃ record, writeStructFields entry.2 = .ok record ∧ bytes = Write.typeid entry.1 ++ record := by
  unfold encodeStruct at h
  split at h
  · cases h
  split at h
  next record hrecord =>
    cases h
    exact ⟨record, hrecord, rfl⟩
  next => cases h

variable {stack : ℕ}

theorem restores_fn {entry : String × FnSig E}
    (hdepth : entry.2.depth ≤ stack) (h : encodeFn entry = .ok bytes) :
    Restores m (readFn stack) bytes (entry.1, entry.2.written) := by
  obtain ⟨record, hrecord, rfl⟩ := encodeFn_eq_ok h
  refine (restores_sym _).bind ((restores_typeid _).bind ?_)
  exact (restores_sigRecord entry.2 hdepth hrecord).map

theorem restores_method
    (hdepth : entry.2.depth ≤ stack) (h : encodeMethod reg entry = .ok bytes) :
    Restores m (readMethod stack) bytes (entry.1, entry.2.written) := by
  obtain ⟨record, hrecord, rfl⟩ := encodeMethod_eq_ok h
  refine (restores_typeid _).bind ((restores_sym _).bind ((restores_typeid _).bind ?_))
  exact (restores_sigRecord entry.2 hdepth hrecord).map

theorem restores_struct
    {entry : TypeId × StructFields E} (hdepth : entry.2.depth ≤ stack) (h : encodeStruct reg entry = .ok bytes) :
    Restores m (readStruct stack) bytes (entry.1, entry.2.written) := by
  obtain ⟨record, hrecord, rfl⟩ := encodeStruct_eq_ok h
  exact (restores_typeid _).bind (restores_structFields entry.2 hdepth hrecord).map

theorem length_typeid_append_pos (t : TypeId) (rest : List UInt8) : 0 < (Write.typeid t ++ rest).length := by
  rw [length_append, length_typeid]
  omega

theorem restores_module (hash : Word) (table : Table String TypeId) :
    Restores m readModule (writeModule (hash, table)) (hash, .ofList (sorted nameLe table)) := by
  have hentry (entry : String × TypeId) : Restores m readModuleEntry (writeModuleEntry entry) entry :=
    (restores_sym entry.1).bind (restores_typeid entry.2).map
  have hentries := Restores.same fun entry (_ : entry ∈ sorted nameLe table) => hentry entry
  refine (restores_u64 hash).bind (Restores.map (.grown (length_le_flatMap _ fun entry _ => ?_) hentries))
  have := length_sym_pos entry.1
  simp only [writeModuleEntry, length_append]
  omega

end

variable {E : Type} {m : Machine Element}

structure Registry.Within (reg : Registry E) (stack : ℕ) : Prop where
  fnSigs : ∀ name sig, reg.fnSigs.lookup name = some sig → sig.depth ≤ stack
  methods : ∀ key sig, reg.methods.lookup key = some sig → sig.depth ≤ stack
  bodies : ∀ gid body, reg.bodies.lookup gid = some body → body.depth ≤ stack
  structs : ∀ gid sf, reg.structs.lookup gid = some sf → sf.depth ≤ stack

def Registry.Decodable (reg : Registry E) : Prop :=
  ∀ gid body bytes, reg.bodies.lookup gid = some body → writeFnBody gid body = .ok bytes →
    ∀ ins ∈ body.hir, ins.opcode.isDecodable = true

def Registry.returned (reg : Registry E) : Registry E :=
  let layouts := ((sorted wordsLe reg.layouts.table).map Prod.snd).foldl Layouts.insert .empty
  { aggregateIdentities := .fromLayouts layouts
    layouts
    moduleIndices := .ofList ((sorted (fun a b => decide (a ≤ b)) reg.moduleIndices).map
      fun entry => (entry.1, .ofList (sorted nameLe entry.2)))
    fnSigs := .ofList (((sorted nameLe reg.fnSigs).filter (isWritten encodeFn)).map
      fun entry => (entry.1, entry.2.written))
    methods := .ofList (((sorted methodLe reg.methods).filter (isWritten (encodeMethod reg))).map
      fun entry => (entry.1, entry.2.written))
    bodies := .ofList (((sorted wordsLe reg.bodies).filter (isWritten encodeBody)).map
      fun entry => (entry.1, entry.2.written))
    enumVariants := .ofList (sorted nameLe reg.enumVariants)
    structs := .ofList (((sorted wordsLe reg.structs).filter (isWritten (encodeStruct reg))).map
      fun entry => (entry.1, entry.2.written))
    structsWithInvariants := ∅
    mergeState := {}
    layoutByBaseName := .build layouts }

variable (reg : Registry E)

theorem restores_modules :
    let modules := sorted (fun a b => decide (a ≤ b)) reg.moduleIndices
    Restores m (Read.grown readModule) (Write.len modules.length ++ modules.flatMap writeModule)
      (modules.map fun entry => (entry.1, .ofList (sorted nameLe entry.2))) := by
  intro modules
  refine .grown (length_le_flatMap _ fun entry _ => ?_) (.many _ fun entry _ => restores_module entry.1 entry.2)
  simp [writeModule, Write.u64, length_wordBytes]

theorem restores_layouts :
    let defs := (sorted wordsLe reg.layouts.table).map Prod.snd
    Restores m (Read.grown readTypeDefinition) (Write.len defs.length ++ defs.flatMap writeTypeDefinition) defs := by
  intro defs
  refine .grown (length_le_flatMap _ fun d _ => ?_) (.same fun d _ => restores_typeDefinition d)
  simp only [writeTypeDefinition, append_assoc]
  exact length_typeid_append_pos ..

variable {stack : ℕ}

theorem restores_fns (hstack : reg.Within stack) :
    Restores m (Read.grown (readFn stack)) (emitTable "fn_sigs" encodeFn (sorted nameLe reg.fnSigs)).1
      (((sorted nameLe reg.fnSigs).filter (isWritten encodeFn)).map fun entry => (entry.1, entry.2.written)) := by
  refine restores_emitTable _ _ _ _ _ (fun entry _ bytes h => ?_) fun entry hentry bytes h => ?_
  · obtain ⟨record, -, rfl⟩ := encodeFn_eq_ok h
    have := length_sym_pos entry.1
    rw [length_append]
    omega
  · exact restores_fn (hstack.fnSigs _ _ ((mem_sorted ..).mp hentry)) h

theorem restores_methods (hstack : reg.Within stack) :
    Restores m (Read.grown (readMethod stack)) (emitTable "methods" (encodeMethod reg) (sorted methodLe reg.methods)).1
      (((sorted methodLe reg.methods).filter (isWritten (encodeMethod reg))).map
        fun entry => (entry.1, entry.2.written)) := by
  refine restores_emitTable _ _ _ _ _ (fun entry _ bytes h => ?_) fun entry hentry bytes h => ?_
  · obtain ⟨record, -, rfl⟩ := encodeMethod_eq_ok h
    exact length_typeid_append_pos ..
  · exact restores_method (hstack.methods _ _ ((mem_sorted ..).mp hentry)) h

theorem restores_structs (hstack : reg.Within stack) :
    Restores m (Read.grown (readStruct stack)) (emitTable "structs" (encodeStruct reg) (sorted wordsLe reg.structs)).1
      (((sorted wordsLe reg.structs).filter (isWritten (encodeStruct reg))).map
        fun entry => (entry.1, entry.2.written)) := by
  refine restores_emitTable _ _ _ _ _ (fun entry _ bytes h => ?_) fun entry hentry bytes h => ?_
  · obtain ⟨record, -, rfl⟩ := encodeStruct_eq_ok h
    exact length_typeid_append_pos ..
  · exact restores_struct (hstack.structs _ _ ((mem_sorted ..).mp hentry)) h

theorem restores_enums :
    let enums := sorted nameLe reg.enumVariants
    Restores m (Read.grown readEnum) (Write.len enums.length ++ enums.flatMap writeEnum) enums := by
  intro enums
  refine .grown (length_le_flatMap _ fun entry _ => ?_) (.same fun entry _ => restores_enum entry.1 entry.2)
  have := length_sym_pos entry.1
  rw [writeEnum, length_append]
  omega

theorem length_body_pos (entry : TypeId × FnBody E) (bytes : List UInt8) (h : encodeBody entry = .ok bytes) :
    0 < bytes.length := by
  obtain ⟨sig, params, -, -, rfl⟩ := writeFnBody_eq_ok (encodeBody_eq_ok.mp h)
  exact length_typeid_append_pos ..

theorem restores_bodies (hstack : reg.Within stack) (hdecodable : reg.Decodable) :
    Restores m (Read.grown (readFnBody stack)) (emitTable "bodies" encodeBody (sorted wordsLe reg.bodies)).1
      (((sorted wordsLe reg.bodies).filter (isWritten encodeBody)).map fun entry => (entry.1, entry.2.written)) := by
  refine restores_emitTable _ _ _ _ _ (fun entry _ bytes h => length_body_pos entry bytes h)
    fun entry hentry bytes h => ?_
  have hlookup := (mem_sorted ..).mp hentry
  rw [encodeBody_eq_ok] at h
  exact restores_fnBody _ _ (hstack.bodies _ _ hlookup) h (hdecodable _ _ _ hlookup h)

theorem rejects_bodies (hstack : reg.Within stack) (hdecodable : ¬ reg.Decodable) :
    Rejects m (Read.grown (readFnBody (E := E) stack))
      (emitTable "bodies" encodeBody (sorted wordsLe reg.bodies)).1 := by
  refine rejects_emitTable _ _ _ _ (fun entry => (entry.1, entry.2.written))
    (fun entry _ bytes h => length_body_pos entry bytes h) (fun entry hentry bytes h => ?_) ?_
  · have hdepth := hstack.bodies _ _ ((mem_sorted ..).mp hentry)
    rw [encodeBody_eq_ok] at h
    by_cases hops : ∀ ins ∈ entry.2.hir, ins.opcode.isDecodable = true
    · exact .inl (restores_fnBody _ _ hdepth h hops)
    · exact .inr (rejects_fnBody _ _ hdepth h (by simpa using hops))
  · simp only [Registry.Decodable, not_forall] at hdecodable
    obtain ⟨gid, body, bytes, hlookup, h, ins, hins, hop⟩ := hdecodable
    refine ⟨(gid, body), (mem_sorted ..).mpr hlookup, bytes, encodeBody_eq_ok.mpr h, ?_⟩
    exact rejects_fnBody _ _ (hstack.bodies _ _ hlookup) h ⟨ins, hins, by simpa using hop⟩

end Vx.Interface
