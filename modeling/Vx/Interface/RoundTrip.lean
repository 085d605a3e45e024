import Vx.Interface.Restores
import Vx.Lib.Fallible

namespace Vx.Interface

open List Option BitVec
open Pipeline (TypeId Word)
open Lib.Reader
open Lib.Fallible (bind_eq_ok)

section
variable {E : Type}

def Topology.written : Topology E → Topology E
  | .gpu (.number value ty span) => (parseSigned 64 value).elim (.gpu (.number value ty span)) gpuAt
  | t => t

def Placement.written (p : Placement E) : Placement E :=
  ⟨p.topology.written, p.space, .space, p.alignment.filter (· ≠ 0)⟩

def Dim.written : Dim E → Dim E
  | .static (.number value _ _) => .static (.number value (some .i32) {})
  | d => d

mutual

def Ty.written : Ty E → Ty E
  | .tensor elem dims placement => .tensor elem (dims.map Dim.written) (placement.map Placement.written)
  | .ref inner memSpace => .ref inner.written memSpace
  | .borrow inner memSpace isMut regionId => .borrow inner.written memSpace isMut regionId
  | .pointer inner placement isMut => .pointer inner.written (placement.map Placement.written) isMut
  | .verified inner => .verified inner.written
  | .pinned inner topology => .pinned inner.written topology.written
  | .genericInstance base args => .genericInstance base.written (Ty.writtens args)
  | .function params ret isUnsafe => .function (Ty.writtens params) ret.written isUnsafe
  | .closure params ret => .closure (Ty.writtens params) ret.written
  | t => t

def Ty.writtens : List (Ty E) → List (Ty E)
  | [] => []
  | t :: ts => t.written :: Ty.writtens ts

end

mutual

def Ty.depth : Ty E → ℕ
  | .ref inner _ | .borrow inner .. | .pointer inner .. | .verified inner | .pinned inner _ => inner.depth + 1
  | .genericInstance base args => max base.depth (Ty.depths args) + 1
  | .function params ret _ | .closure params ret => max (Ty.depths params) ret.depth + 1
  | _ => 1

def Ty.depths : List (Ty E) → ℕ
  | [] => 0
  | t :: ts => max t.depth (Ty.depths ts)

end

def writtenLength : Option Length → Option Length
  | some .other => none
  | l => l

def FnSig.written (sig : FnSig E) : FnSig E :=
  { sig with params := Ty.writtens sig.params, retTy := sig.retTy.written, retValid := writtenLength sig.retValid }

def FnBody.written (body : FnBody E) : FnBody E :=
  { body with params := Ty.writtens body.params, retTy := body.retTy.written }

def StructFields.written (sf : StructFields E) : StructFields E :=
  { sf with fields := sf.fields.map fun (name, ty) => (name, ty.written) }

end

variable {m : Machine Element}

theorem restores_elementType (e : ElementType) : Restores m readElementType (writeElementType e) e := by
  cases e with
  | generic s => exact (restores_u8 17).bind (restores_sym s).map
  | _ => exact (restores_u8 _).bind (.done _)

theorem restores_fieldTy (ty : FieldTy) : Restores m readFieldTy (writeFieldTy ty) ty := by
  cases ty with
  | scalar e => exact (restores_u8 0).bind (restores_elementType e).map
  | nominal id => exact (restores_u8 1).bind (restores_typeid id).map
  | opaqueTy => exact (restores_u8 2).bind (.done _)
  | tensor e rank =>
    exact ((restores_u8 3).bind ((restores_elementType e).bind (restores_u64 rank).map)).cast (by simp [writeFieldTy])
  | vector e lanes =>
    exact ((restores_u8 4).bind ((restores_elementType e).bind (restores_u64 lanes).map)).cast (by simp [writeFieldTy])

theorem restores_fieldLayout (f : FieldLayout) : Restores m readFieldLayout (writeFieldLayout f) f := by
  simp only [writeFieldLayout, List.append_assoc]
  refine (restores_sym f.name).bind ?_
  refine (restores_u64 f.offset).bind ?_
  refine (restores_u64 f.size).bind ?_
  exact (restores_fieldTy f.ty).map

theorem length_typeid (t : TypeId) : (Write.typeid t).length = 32 := by
  simp [Write.typeid, Write.u64, length_flatMap, length_wordBytes]

theorem length_sym_pos (s : String) : 0 < (Write.sym s).length := by
  simp [Write.sym, Write.bytes, Write.len, Write.u64, length_wordBytes]

theorem restores_typeDefinition (d : TypeDefinition) :
    Restores m readTypeDefinition (writeTypeDefinition d) d := by
  have hfields : Restores m (Read.vec .field readFieldLayout)
      (Write.len d.fields.length ++ d.fields.flatMap writeFieldLayout) d.fields := by
    refine .vec (length_le_flatMap _ fun f _ => ?_) ?_
    · have := length_sym_pos f.name
      simp only [writeFieldLayout, length_append]
      omega
    · exact .same fun f _ => restores_fieldLayout f
  have hdeps : Restores m (Read.vec .typeId Read.typeid)
      (Write.len d.byValueDependencies.length ++ d.byValueDependencies.flatMap Write.typeid)
      d.byValueDependencies := by
    refine .vec (length_le_flatMap _ fun t _ => ?_) ?_
    · simp [length_typeid]
    · exact .same fun t _ => restores_typeid t
  rw [writeTypeDefinition]
  simp only [List.append_assoc] at hfields hdeps ⊢
  refine (restores_typeid d.id).bind ?_
  refine (restores_sym d.name).bind ?_
  refine (restores_u64 d.sizeBytes).bind ?_
  refine (restores_u64 d.alignBytes).bind ?_
  refine hfields.bind ?_
  exact hdeps.map

theorem restores_optTypeid (id : Option TypeId) : Restores m readOptTypeid (writeOptTypeid id) id := by
  cases id with
  | none => exact (restores_u8 0).bind (.done _)
  | some t => exact (restores_u8 1).bind (restores_typeid t).map

theorem restores_memorySpace (s : MemorySpace) : Restores m readMemorySpace (writeMemorySpace s) s := by
  cases s with
  | custom s => exact (restores_u8 6).bind (restores_sym s).map
  | _ => exact (restores_u8 _).bind (.done _)

theorem restores_optMemorySpace (s : Option MemorySpace) : Restores m readOptMemorySpace (writeOptMemorySpace s) s := by
  cases s with
  | none => exact (restores_u8 0).bind (.done _)
  | some s => exact (restores_u8 1).bind (restores_memorySpace s).map

theorem restores_bool (b : Bool) : Restores m readBool (writeBool b) b := by
  cases b <;> exact (restores_u8 _).map

section
variable {E : Type} {bytes : List UInt8}

theorem restores_topology (t : Topology E) (h : writeTopology t = .ok bytes) :
    Restores m readTopology bytes t.written := by
  cases t with
  | npu | accCore | slice => cases h
  | custom s =>
    cases h
    exact (restores_u8 7).bind (restores_sym s).map
  | gpu index =>
    cases index with
    | other e => cases h
    | number value ty span =>
      simp only [writeTopology] at h
      split at h
      next idx hidx =>
        cases h
        obtain ⟨hlow, hhigh⟩ := parseSigned_range hidx
        have hback : (BitVec.ofInt 64 idx).toInt = idx := by
          rw [toInt_ofInt]
          exact Int.bmod_eq_of_le (by omega) (by omega)
        have hgpu := (restores_u64 (m := m) (BitVec.ofInt 64 idx)).map (f := fun w => (gpuAt w.toInt : Topology E))
        rw [hback] at hgpu
        have hwritten : (Topology.gpu (.number value ty span) : Topology E).written = gpuAt idx := by
          simp [Topology.written, hidx]
        rw [hwritten]
        exact (restores_u8 3).bind hgpu
      next => cases h
  | _ =>
    cases h
    exact (restores_u8 _).bind (.done _)

theorem writtenAlignment (alignment : Option Word) :
    (if alignment.getD 0 ≠ 0 then some (alignment.getD 0) else none) = alignment.filter (· ≠ 0) := by
  cases alignment with
  | none => rfl
  | some n => by_cases hn : n = 0 <;> simp [hn, Option.filter]

theorem restores_optPlacement (p : Option (Placement E)) (h : writeOptPlacement p = .ok bytes) :
    Restores m readOptPlacement bytes (p.map Placement.written) := by
  cases p with
  | none =>
    cases h
    exact (restores_u8 0).bind (.done _)
  | some p =>
    obtain ⟨top, htop, h⟩ := bind_eq_ok h
    cases h
    rw [List.append_assoc, List.append_assoc, map_some, Placement.written, ← writtenAlignment]
    refine (restores_u8 1).bind ?_
    refine (restores_topology p.topology htop).bind ?_
    refine (restores_memorySpace p.space).bind ?_
    exact (restores_u64 (p.alignment.getD 0)).map

theorem restores_dim (d : Dim E) (h : writeDim d = .ok bytes) :
    Restores m readDim bytes d.written ∧ 0 < bytes.length := by
  cases d with
  | dyn =>
    cases h
    exact ⟨(restores_u8 0).bind (.done _), by simp⟩
  | static expr =>
    cases expr with
    | other e => cases h
    | number value ty span =>
      cases h
      exact ⟨(restores_u8 1).bind (restores_sym value).map, by simp⟩

theorem restores_dims (ds : List (Dim E)) (h : writeDims ds = .ok bytes) :
    Restores m (Program.many ds.length readDim) bytes (ds.map Dim.written) ∧ ds.length ≤ bytes.length := by
  induction ds generalizing bytes with
  | nil =>
    cases h
    exact ⟨.done _, le_rfl⟩
  | cons d ds ih =>
    obtain ⟨first, hfirst, h⟩ := bind_eq_ok h
    obtain ⟨rest, hrest, h⟩ := bind_eq_ok h
    cases h
    obtain ⟨hd, hpos⟩ := restores_dim (m := m) d hfirst
    obtain ⟨hds, hlength⟩ := ih hrest
    refine ⟨hd.bind hds.map, ?_⟩
    simp only [length_cons, length_append]
    omega

theorem length_writeType_pos (t : Ty E) (h : writeType t = .ok bytes) : 0 < bytes.length := by
  cases t with
  | const | module => cases h
  | ref | verified | borrow =>
    obtain ⟨_, _, h⟩ := bind_eq_ok h
    cases h
    simp
  | pointer | pinned | genericInstance | function | closure | tensor =>
    obtain ⟨_, _, h⟩ := bind_eq_ok h
    obtain ⟨_, _, h⟩ := bind_eq_ok h
    cases h
    simp
  | _ =>
    cases h
    simp

mutual

theorem restores_type (t : Ty E) (depth : ℕ) (hdepth : t.depth ≤ depth)
    {bytes : List UInt8} (h : writeType t = .ok bytes) : Restores m (readType depth) bytes t.written := by
  cases depth with
  | zero => cases t <;> simp [Ty.depth] at hdepth
  | succ depth =>
    cases t with
    | scalar e =>
      cases h
      exact (restores_u8 0).bind (restores_elementType e).map
    | struct name id | enum name id | generic name id =>
      cases h
      exact (restores_u8 _).bind ((restores_sym name).bind (restores_optTypeid id).map)
    | ref inner memSpace =>
      obtain ⟨first, hfirst, h⟩ := bind_eq_ok h
      cases h
      have ih := restores_type inner depth (Nat.le_of_succ_le_succ hdepth) hfirst
      exact (restores_u8 4).bind (ih.bind (restores_memorySpace memSpace).map)
    | pointer inner placement isMut =>
      obtain ⟨first, hfirst, h⟩ := bind_eq_ok h
      obtain ⟨second, hsecond, h⟩ := bind_eq_ok h
      cases h
      rw [List.append_assoc, List.append_assoc]
      have ih := restores_type inner depth (Nat.le_of_succ_le_succ hdepth) hfirst
      exact (restores_u8 5).bind (ih.bind ((restores_optPlacement placement hsecond).bind (restores_bool isMut).map))
    | borrow inner memSpace isMut regionId =>
      obtain ⟨first, hfirst, h⟩ := bind_eq_ok h
      cases h
      rw [List.append_assoc, List.append_assoc, List.append_assoc]
      have ih := restores_type inner depth (Nat.le_of_succ_le_succ hdepth) hfirst
      refine (restores_u8 6).bind (ih.bind ?_)
      exact (restores_optMemorySpace memSpace).bind ((restores_bool isMut).bind (restores_u64 regionId).map)
    | pinned inner topology =>
      obtain ⟨first, hfirst, h⟩ := bind_eq_ok h
      obtain ⟨second, hsecond, h⟩ := bind_eq_ok h
      cases h
      have ih := restores_type inner depth (Nat.le_of_succ_le_succ hdepth) hfirst
      exact (restores_u8 7).bind (ih.bind (restores_topology topology hsecond).map)
    | verified inner =>
      obtain ⟨first, hfirst, h⟩ := bind_eq_ok h
      cases h
      have ih := restores_type inner depth (Nat.le_of_succ_le_succ hdepth) hfirst
      exact (restores_u8 8).bind ih.map
    | genericInstance base args =>
      obtain ⟨first, hfirst, h⟩ := bind_eq_ok h
      obtain ⟨second, hsecond, h⟩ := bind_eq_ok h
      cases h
      rw [List.append_assoc, List.append_assoc]
      simp only [Ty.depth] at hdepth
      have ih := restores_type base depth (by omega) hfirst
      obtain ⟨hargs, hlength⟩ := restores_types args depth (by omega) hsecond
      exact (restores_u8 9).bind (ih.bind (Restores.vec hlength hargs).map)
    | function params ret isUnsafe =>
      obtain ⟨first, hfirst, h⟩ := bind_eq_ok h
      obtain ⟨second, hsecond, h⟩ := bind_eq_ok h
      cases h
      simp only [Ty.depth] at hdepth
      obtain ⟨hparams, hlength⟩ := restores_types params depth (by omega) hfirst
      have ih := restores_type ret depth (by omega) hsecond
      refine (restores_u8 10).bind ((restores_bool isUnsafe).bind ?_)
      exact (Restores.vec hlength hparams).bind ih.map
    | closure params ret =>
      obtain ⟨first, hfirst, h⟩ := bind_eq_ok h
      obtain ⟨second, hsecond, h⟩ := bind_eq_ok h
      cases h
      simp only [Ty.depth] at hdepth
      obtain ⟨hparams, hlength⟩ := restores_types params depth (by omega) hfirst
      have ih := restores_type ret depth (by omega) hsecond
      exact (restores_u8 11).bind ((Restores.vec hlength hparams).bind ih.map)
    | simd e lanes =>
      cases h
      exact (restores_u8 12).bind ((restores_elementType e).bind (restores_u64 lanes).map)
    | matrix | unknown =>
      cases h
      exact (restores_u8 _).bind (.done _)
    | tensor e dims placement =>
      obtain ⟨first, hfirst, h⟩ := bind_eq_ok h
      obtain ⟨second, hsecond, h⟩ := bind_eq_ok h
      cases h
      rw [List.append_assoc, List.append_assoc, List.append_assoc]
      obtain ⟨hdims, hlength⟩ := restores_dims (m := m) dims hsecond
      refine (restores_u8 15).bind ((restores_elementType e).bind ?_)
      exact (restores_optPlacement placement hfirst).bind (Restores.vec hlength hdims).map
    | const | module => cases h

theorem restores_types (ts : List (Ty E)) (depth : ℕ) (hdepth : Ty.depths ts ≤ depth)
    {bytes : List UInt8} (h : writeTypes ts = .ok bytes) :
    Restores m (Program.many ts.length (readType depth)) bytes (Ty.writtens ts) ∧ ts.length ≤ bytes.length := by
  cases ts with
  | nil =>
    cases h
    exact ⟨.done _, le_rfl⟩
  | cons t ts =>
    obtain ⟨first, hfirst, h⟩ := bind_eq_ok h
    obtain ⟨rest, hrest, h⟩ := bind_eq_ok h
    cases h
    simp only [Ty.depths] at hdepth
    have ht := restores_type t depth (by omega) hfirst
    have hpos := length_writeType_pos t hfirst
    obtain ⟨hts, hlength⟩ := restores_types ts depth (by omega) hrest
    refine ⟨ht.bind hts.map, ?_⟩
    simp only [length_cons, length_append]
    omega

end

end

theorem length_hirInstruction (ins : HirInstruction) : (writeHirInstruction ins).length = 40 := by
  simp [writeHirInstruction, Write.u64, length_wordBytes]

def Opcode.isDecodable (op : Opcode) : Bool := (Opcode.fromU32 op.code).isSome

theorem Opcode.fromU32_code (op : Opcode) (h : op.isDecodable = true) : Opcode.fromU32 op.code = some op := by
  cases op <;> first | rfl | cases h

theorem Opcode.code_lt (op : Opcode) : op.code < 2 ^ 32 := by
  cases op <;> decide

theorem decodeOpcode_code (op : Opcode) : decodeOpcode (BitVec.ofNat 64 op.code) = Opcode.fromU32 op.code := by
  have hcode : (BitVec.ofNat 64 op.code).toNat = op.code := toNat_len (lt_trans op.code_lt (by decide))
  rw [decodeOpcode, hcode, if_pos op.code_lt]

theorem restores_hirInstruction (ins : HirInstruction) (h : ins.opcode.isDecodable = true) :
    Restores m readHirInstruction (writeHirInstruction ins) ins := by
  have hnarrow (v : BitVec 32) : (v.setWidth 64).setWidth 32 = v := by simp
  refine (restores_u64 _).bind ?_
  rw [decodeOpcode_code, Opcode.fromU32_code _ h]
  refine (restores_u64 _).bind ?_
  refine (restores_u64 _).bind ?_
  refine (restores_u64 _).bind ?_
  simp only [hnarrow]
  exact (restores_u64 ins.imm).map

theorem rejects_hirInstruction (ins : HirInstruction) (h : ins.opcode.isDecodable = false) :
    Rejects m readHirInstruction (writeHirInstruction ins) := by
  have hnone : Opcode.fromU32 ins.opcode.code = none := Option.isNone_iff_eq_none.mp (Option.isSome_eq_false_iff.mp h)
  refine (restores_u64 _).bind_rejects ?_
  rw [decodeOpcode_code, hnone]
  exact fun _ => .fail _ _

section
variable {E : Type}

theorem restores_retValid (l : Option Length) : Restores m readRetValid (writeRetValid l) (writtenLength l) := by
  match l with
  | none | some .other => exact (restores_u8 0).bind (.done _)
  | some (.param i) => exact (restores_u8 1).bind (restores_u64 i).map
  | some (.constant c) => exact (restores_u8 2).bind (restores_u64 c).map

def FnSig.depth (sig : FnSig E) : ℕ := max (Ty.depths sig.params) sig.retTy.depth

def FnBody.depth (body : FnBody E) : ℕ := max (Ty.depths body.params) body.retTy.depth

def StructFields.depth (sf : StructFields E) : ℕ := Ty.depths (sf.fields.map Prod.snd)

variable {depth : ℕ} {bytes : List UInt8}
theorem restores_sigRecord (sig : FnSig E) (hdepth : sig.depth ≤ depth) (h : encodeSigRecord sig = .ok bytes) :
    Restores m (readSigRecord depth sig.gid) bytes sig.written := by
  obtain ⟨params, hparams, h⟩ := bind_eq_ok h
  obtain ⟨ret, hret, h⟩ := bind_eq_ok h
  cases h
  simp only [FnSig.depth] at hdepth
  obtain ⟨hps, hlength⟩ := restores_types (m := m) sig.params depth (by omega) hparams
  have hr := restores_type (m := m) sig.retTy depth (by omega) hret
  simp only [List.append_assoc]
  refine (Restores.grown hlength hps).bind ?_
  refine hr.bind ?_
  refine (restores_u8 sig.retProv).bind ?_
  refine (restores_bool sig.isUnsafe).bind ?_
  exact (restores_retValid sig.retValid).map

theorem writeFnBody_eq_ok {gid : TypeId} {body : FnBody E} (h : writeFnBody gid body = .ok bytes) :
    ∃ sig params, writeType body.retTy = .ok sig ∧ writeTypes body.params = .ok params ∧
      bytes = Write.typeid gid ++ (Write.sym body.name ++ ((Write.len body.params.length ++ params) ++ (sig ++
        ((Write.len body.hir.length ++ body.hir.flatMap writeHirInstruction) ++
          (Write.len body.types.length ++ body.types.flatMap Write.typeid))))) := by
  unfold writeFnBody at h
  split at h
  · cases h
  obtain ⟨sig, hsig, h⟩ := bind_eq_ok h
  obtain ⟨params, hparams, h⟩ := bind_eq_ok h
  cases h
  exact ⟨sig, params, hsig, hparams, by simp only [List.append_assoc]⟩

theorem restores_fnBody (gid : TypeId) (body : FnBody E)
    (hdepth : body.depth ≤ depth) (h : writeFnBody gid body = .ok bytes)
    (hops : ∀ ins ∈ body.hir, ins.opcode.isDecodable = true) :
    Restores m (readFnBody depth) bytes (gid, body.written) := by
  obtain ⟨sig, params, hsig, hparams, rfl⟩ := writeFnBody_eq_ok h
  simp only [FnBody.depth] at hdepth
  obtain ⟨hps, hlength⟩ := restores_types (m := m) body.params depth (by omega) hparams
  have hr := restores_type (m := m) body.retTy depth (by omega) hsig
  have hhir := Restores.same fun ins hins => restores_hirInstruction (m := m) ins (hops ins hins)
  have htypes := Restores.same fun t (_ : t ∈ body.types) => restores_typeid (m := m) t
  refine (restores_typeid gid).bind ?_
  refine (restores_sym body.name).bind ?_
  refine (Restores.vec hlength hps).bind ?_
  refine hr.bind ?_
  refine (Restores.vec (length_le_flatMap _ fun ins _ => by simp [length_hirInstruction]) hhir).bind ?_
  exact (Restores.vec (length_le_flatMap _ fun t _ => by simp [length_typeid]) htypes).map

theorem rejects_fnBody (gid : TypeId) (body : FnBody E)
    (hdepth : body.depth ≤ depth) (h : writeFnBody gid body = .ok bytes)
    (hops : ∃ ins ∈ body.hir, ins.opcode.isDecodable = false) : Rejects m (readFnBody (E := E) depth) bytes := by
  obtain ⟨sig, params, hsig, hparams, rfl⟩ := writeFnBody_eq_ok h
  simp only [FnBody.depth] at hdepth
  obtain ⟨hps, hlength⟩ := restores_types (m := m) body.params depth (by omega) hparams
  have hr := restores_type (m := m) body.retTy depth (by omega) hsig
  have hhir : Rejects m (Program.many body.hir.length readHirInstruction) (body.hir.flatMap writeHirInstruction) := by
    obtain ⟨bad, hbad, hop⟩ := hops
    refine .many id (fun ins _ => ?_) ⟨bad, hbad, rejects_hirInstruction bad hop⟩
    cases hins : ins.opcode.isDecodable with
    | true => exact .inl (restores_hirInstruction ins hins)
    | false => exact .inr (rejects_hirInstruction ins hins)
  refine (restores_typeid gid).bind_rejects ?_
  refine (restores_sym body.name).bind_rejects ?_
  refine (Restores.vec hlength hps).bind_rejects ?_
  refine hr.bind_rejects ?_
  exact (Rejects.vec (length_le_flatMap _ fun ins _ => by simp [length_hirInstruction]) hhir).bind _ _

theorem restores_fields (fields : List (String × Ty E))
    (hdepth : Ty.depths (fields.map Prod.snd) ≤ depth) (h : writeFields fields = .ok bytes) :
    Restores m (Program.many fields.length (readField depth)) bytes (fields.map fun (name, ty) => (name, ty.written)) ∧
      fields.length ≤ bytes.length := by
  induction fields generalizing bytes with
  | nil =>
    cases h
    exact ⟨.done _, le_rfl⟩
  | cons field fields ih =>
    obtain ⟨name, ty⟩ := field
    simp only [map_cons, Ty.depths] at hdepth
    cases hty : writeType ty with
    | error reason => simp [writeFields, hty] at h
    | ok first =>
      simp only [writeFields, hty] at h
      obtain ⟨rest, hrest, h⟩ := bind_eq_ok h
      cases h
      have ht := restores_type (m := m) ty depth (by omega) hty
      obtain ⟨hfields, hlength⟩ := ih (by omega) hrest
      have hfirst : Restores m (readField depth) (Write.sym name ++ first) (name, ty.written) :=
        (restores_sym name).bind ht.map
      refine ⟨hfirst.bind hfields.map, ?_⟩
      have := length_sym_pos name
      simp only [length_cons, length_append]
      omega

theorem restores_structFields (sf : StructFields E) (hdepth : sf.depth ≤ depth) (h : writeStructFields sf = .ok bytes) :
    Restores m (readStructFields depth) bytes sf.written := by
  obtain ⟨fields, hfields, h⟩ := bind_eq_ok h
  cases h
  obtain ⟨hfs, hlength⟩ := restores_fields (m := m) sf.fields hdepth hfields
  have hgenerics := Restores.same fun s (_ : s ∈ sf.generics) => restores_sym (m := m) s
  rw [List.append_assoc]
  refine (Restores.grown (length_le_flatMap _ fun s _ => length_sym_pos s) hgenerics).bind ?_
  exact (Restores.grown hlength hfs).map

end

def Slots.Holds {n filled : ℕ} (s : Slots n filled) (done : List String) (todo : ℕ) : Prop :=
  s.slots = done.map some ++ List.replicate todo none

variable {filled n : ℕ} {done : List String} {s : Slots n filled}

theorem Slots.Holds.names (h : s.Holds done 0) (hfull : filled = n) : s.names hfull = done := by
  obtain ⟨slots, hlength, hfilled⟩ := s
  subst h
  simp [Slots.names, List.pmap_map]

theorem Slots.Holds.getElem? {todo number : ℕ}
    (h : s.Holds done (todo + 1)) (hnumber : number = done.length) : s.slots[number]? = some none := by
  rw [h, hnumber, List.getElem?_append_right (by simp)]
  simp

theorem Slots.Holds.place {todo number : ℕ} (h : s.Holds done (todo + 1)) (hnumber : number = done.length) (v : String)
    (hslot : s.slots[number]? = some none) : (s.place number v hslot).Holds (done ++ [v]) todo := by
  subst hnumber
  simp only [Slots.Holds, Slots.place]
  rw [h, set_append_right _ _ (by simp)]
  simp [List.replicate_succ]

theorem restores_readVariants (name : String) (hn : n < 2 ^ 64) (todo done : List String) (filled : ℕ)
    (hdone : filled = done.length) (h : filled + todo.length = n) (s : Slots n filled) (hs : s.Holds done todo.length) :
    Restores m (readVariants name n todo.length filled h s)
      ((todo.zipIdx filled).flatMap writeVariant) (done ++ todo) := by
  induction todo generalizing done filled with
  | nil =>
    rw [append_nil, ← hs.names h]
    exact .done _
  | cons v todo ih =>
    have hlen : (BitVec.ofNat 64 filled).toNat = filled := toNat_len (by simp at h; omega)
    have hslot := hs.getElem? (hlen.trans hdone)
    simp only [zipIdx_cons, flatMap_cons, List.append_assoc, length_cons, writeVariant]
    refine (restores_sym v).bind ((restores_u64 _).bind ?_)
    dsimp only
    split
    next hnone =>
      rw [hslot] at hnone
      cases hnone
    next hsome =>
      rw [hslot] at hsome
      cases hsome
    next hfree =>
      have hrest := ih (done ++ [v]) (filled + 1) (by simp [hdone]) (by simp at h; omega) _
        (hs.place (hlen.trans hdone) v hfree)
      rwa [List.append_assoc] at hrest

theorem length_variants (variants : List String) (i : ℕ) :
    variants.length ≤ ((variants.zipIdx i).flatMap writeVariant).length := by
  have hpos : ∀ v, 0 < (writeVariant v).length := fun v => by
    have := length_sym_pos v.1
    simp only [writeVariant, length_append]
    omega
  have h := length_le_flatMap (variants.zipIdx i) fun v _ => hpos v
  rwa [length_zipIdx] at h

theorem restores_enum (name : String) (variants : List String) :
    Restores m readEnum (Write.sym name ++ writeVariants variants) (name, variants) := by
  refine (restores_sym name).bind ?_
  intro hfits
  have hn : Fits m variants.length := by
    refine hfits.mono ?_
    have := length_variants variants 0
    simp only [writeVariants, length_append]
    omega
  refine Restores.len (length_variants variants 0) (fun hlen => ?_) hfits
  rw [hlen]
  refine (restores_withCapacity hn).bind ?_
  exact (restores_readVariants name hn.word variants [] 0 rfl (Nat.zero_add _) (.empty _) rfl).map

end Vx.Interface
