import Vx.Lib.CText

/-!
The table that says which worker serves which topology: `runtime/vx_manifest.h`.
-/

namespace Vx.Fleet

open List
open Lib.CText Lib.MachineInt

def maxWorkers : ℕ := 32

def maxName : ℕ := 64

def maxHost : ℕ := 128

structure Entry where
  name : Bytes
  host : Bytes
  port : ℤ
  dispatchId : ℤ
deriving DecidableEq, Repr

structure Manifest where
  workers : List Entry
deriving DecidableEq, Repr

def Manifest.init : Manifest := ⟨[]⟩

def customIdBase : ℤ := 3000

def customIdSpan : UInt32 := 2147480648

def fnv32 (s : Bytes) : UInt32 :=
  s.foldl (fun hash b => (hash ^^^ b.toUInt32) * 16777619) 2166136261

def customId (name : Bytes) : ℤ := customIdBase + (fnv32 name % customIdSpan).toNat

def indexedId (base : ℤ) (head : String) (name : Bytes) : Option ℤ :=
  (scanInt (utf8 head) name).map fun index => toI32 (base + index)

def dispatchId (name : Bytes) : ℤ :=
  if name = utf8 "CPU" ∨ name = utf8 "Current" then 0
  else if name = utf8 "AMX" then 300
  else if name = utf8 "ANE" then 400
  else if name = utf8 "CpuAvx512" then 600
  else if name = utf8 "CpuNeon" then 700
  else
    ((indexedId 100 "NPU[" name).or
      ((indexedId 200 "AccCore[" name).or (indexedId 500 "GPU[" name))).getD (customId name)

namespace Manifest

def add (m : Manifest) : Option Bytes → Option Bytes → ℤ → Option Manifest
  | some name, some host, port =>
    if m.workers.length = maxWorkers then none
    else if name.length = 0 ∨ maxName ≤ name.length ∨ host.length = 0 ∨ maxHost ≤ host.length then none
    else if port ≤ 0 ∨ 65535 < port then none
    else if m.workers.any fun w => w.name = name then none
    else
      let id := Fleet.dispatchId name
      if m.workers.any fun w => w.dispatchId = id then none
      else some ⟨m.workers ++ [⟨name, host, port, id⟩]⟩
  | _, _, _ => none

def find (m : Manifest) : Option Bytes → Option Entry
  | none => none
  | some name => m.workers.find? fun w => w.name = name

def findById (m : Manifest) (dispatchId : ℤ) : Option Entry :=
  m.workers.find? fun w => w.dispatchId = dispatchId

end Manifest

inductive PlacementKind
  | remote | localRun | unlisted
deriving DecidableEq, Repr

def classify (m : Option Manifest) (name : Option Bytes) (dispatchId : ℤ) : PlacementKind × Option Entry :=
  match m with
  | none => (.localRun, none)
  | some m =>
    if m.workers.length = 0 then (.localRun, none)
    else match (m.find name).or (m.findById dispatchId) with
      | none => (.unlisted, none)
      | some w => (.remote, some w)

inductive Built : Manifest → Prop
  | init : Built Manifest.init
  | add {m m' : Manifest} {name host : Option Bytes} {port : ℤ} (hm : Built m)
      (h : m.add name host port = some m') : Built m'

variable {m : Manifest}

theorem add_eq_some {m' : Manifest} {name host : Option Bytes} {port : ℤ} (h : m.add name host port = some m') :
    ∃ n t, name = some n ∧ host = some t ∧ (∀ w ∈ m.workers, w.dispatchId ≠ dispatchId n) ∧
      m' = ⟨m.workers ++ [⟨n, t, port, dispatchId n⟩]⟩ := by
  cases name with
  | none => cases h
  | some n =>
    cases host with
    | none => cases h
    | some t =>
      unfold Manifest.add at h
      dsimp only at h
      split_ifs at h with hfull hlength hport hname hid
      cases h
      refine ⟨n, t, rfl, rfl, ?_, rfl⟩
      intro w hw heq
      exact hid (List.any_eq_true.2 ⟨w, hw, by simpa using heq⟩)

theorem Built.numbered (hm : Built m) : ∀ w ∈ m.workers, w.dispatchId = dispatchId w.name := by
  induction hm with
  | init => simp [Manifest.init]
  | add hm h ih =>
    obtain ⟨n, t, -, -, -, rfl⟩ := add_eq_some h
    intro w hw
    rcases List.mem_append.1 hw with hold | hnew
    · exact ih w hold
    · rw [List.mem_singleton.1 hnew]

theorem Built.distinct (hm : Built m) : (m.workers.map (·.dispatchId)).Nodup := by
  induction hm with
  | init => simp [Manifest.init]
  | add hm h ih =>
    obtain ⟨n, t, -, -, hnew, rfl⟩ := add_eq_some h
    rw [map_append, nodup_append]
    refine ⟨ih, by simp, ?_⟩
    intro id hid id' hid' heq
    obtain ⟨w, hw, rfl⟩ := List.mem_map.1 hid
    rw [map_singleton, List.mem_singleton] at hid'
    exact hnew w hw (heq.trans hid')

theorem find_of_distinct {entries : List Entry} {w : Entry} (hd : (entries.map (·.dispatchId)).Nodup)
    (hw : w ∈ entries) : entries.find? (fun e => e.dispatchId = w.dispatchId) = some w := by
  induction entries with
  | nil => cases hw
  | cons e entries ih =>
    obtain ⟨hout, hd⟩ := List.nodup_cons.1 hd
    rcases List.mem_cons.1 hw with rfl | hin
    · simp
    · have hne : e.dispatchId ≠ w.dispatchId := fun heq => hout (List.mem_map.2 ⟨w, hin, heq.symm⟩)
      rw [List.find?_cons_of_neg (by simpa using hne)]
      exact ih hd hin

theorem Built.find_or (hm : Built m) (name : Bytes) :
    (m.find (some name)).or (m.findById (dispatchId name)) = m.findById (dispatchId name) := by
  cases hfind : m.find (some name) with
  | none => rfl
  | some w =>
    have hw : w ∈ m.workers := mem_of_find?_eq_some hfind
    have hname : w.name = name := by simpa using List.find?_some hfind
    have hid : dispatchId name = w.dispatchId := by rw [hm.numbered w hw, hname]
    rw [hid]
    exact (find_of_distinct hm.distinct hw).symm

theorem Built.classify_name (hm : Built m) (name : Bytes) :
    classify (some m) (some name) (dispatchId name) = classify (some m) none (dispatchId name) := by
  have hfind := hm.find_or name
  unfold classify
  dsimp only
  rw [hfind]
  rfl

end Vx.Fleet
