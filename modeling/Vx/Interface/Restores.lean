import Vx.Interface.Metadata

namespace Vx.Interface

open List BitVec
open Pipeline (TypeId Word)
open Lib.Reader

structure Fits (m : Machine Element) (n : ℕ) : Prop where
  word : n < 2 ^ 64
  memory : ∀ kind, n * m.size kind ≤ m.allocation

theorem Fits.mono {m : Machine Element} {n n' : ℕ} (h : Fits m n) (hle : n' ≤ n) : Fits m n' :=
  ⟨lt_of_le_of_lt hle h.word, fun kind => le_trans (Nat.mul_le_mul_right _ hle) (h.memory kind)⟩

def Restores {α : Type} (m : Machine Element) (p : Read α) (bytes : List UInt8) (value : α) : Prop :=
  Fits m bytes.length → Yields m p bytes value

def Rejects {α : Type} (m : Machine Element) (p : Read α) (bytes : List UInt8) : Prop :=
  Fits m bytes.length → Fails m p bytes

variable {m : Machine Element} {α β : Type}

theorem Restores.done (value : α) : Restores m (pure value) [] value := fun _ => .done value

variable {p : Read α} {bytes bytes' : List UInt8} {x : α}

theorem Restores.bind {f : α → Read β} {y : β}
    (h : Restores m p bytes x) (h' : Restores m (f x) bytes' y) : Restores m (p >>= f) (bytes ++ bytes') y := by
  intro hfits
  rw [length_append] at hfits
  exact (h (hfits.mono (Nat.le_add_right ..))).bind (h' (hfits.mono (Nat.le_add_left ..)))

theorem Restores.map {f : α → β} (h : Restores m p bytes x) : Restores m (p >>= fun x => pure (f x)) bytes (f x) := by
  have h := h.bind (f := fun x => pure (f x)) (.done (f x))
  rwa [append_nil] at h

theorem Restores.cast (h : Restores m p bytes x) (heq : bytes' = bytes) : Restores m p bytes' x := heq ▸ h

variable {γ : Type}

theorem length_le_flatMap_of_mem {xs : List γ} {x : γ} (encode : γ → List UInt8) (hx : x ∈ xs) :
    (encode x).length ≤ (xs.flatMap encode).length := by
  rw [length_flatMap]
  exact single_le_sum (fun _ _ => Nat.zero_le _) _ (mem_map_of_mem hx)

variable {item : Read α} {encode : γ → List UInt8}

theorem Restores.many {xs : List γ} (value : γ → α) (h : ∀ x ∈ xs, Restores m item (encode x) (value x)) :
    Restores m (Program.many xs.length item) (xs.flatMap encode) (xs.map value) := by
  exact fun hfits => .many fun x hx => h x hx (hfits.mono (length_le_flatMap_of_mem encode hx))

variable {xs : List α}

theorem Restores.same {encode : α → List UInt8} (h : ∀ x ∈ xs, Restores m item (encode x) x) :
    Restores m (Program.many xs.length item) (xs.flatMap encode) xs := by
  have h := Restores.many id h
  rwa [map_id] at h

theorem restores_u8 (v : UInt8) : Restores m Read.u8 [v] v := fun _ => (Yields.take _ ⟨[v], rfl⟩).bind (.done v)

theorem restores_u64 (v : Word) : Restores m Read.u64 (Write.u64 v) v := by
  intro _
  have h := (Yields.take (m := m) (fun pos => s!"vxlib: unexpected end of buffer (need {8} at {pos})")
    ⟨wordBytes v, length_wordBytes v⟩).bind (f := fun b => pure (bytesWord b.1)) (.done _)
  rwa [bytesWord_wordBytes, append_nil] at h

variable {n : ℕ}

theorem toNat_len (h : n < 2 ^ 64) : (BitVec.ofNat 64 n).toNat = n := by
  rw [toNat_ofNat, Nat.mod_eq_of_lt h]

variable {f : Word → Read β}

theorem Restores.len {y : β} (hn : n ≤ bytes.length)
    (h : (BitVec.ofNat 64 n).toNat = n → Restores m (f (BitVec.ofNat 64 n)) bytes y) :
    Restores m (Read.u64 >>= f) (Write.len n ++ bytes) y := by
  intro hfits
  have hword : n < 2 ^ 64 := lt_of_le_of_lt (le_trans hn (by simp)) hfits.word
  exact (restores_u64 _).bind (h (toNat_len hword)) hfits

theorem restores_bytes (b : List UInt8) : Restores m Read.bytes (Write.bytes b) b := by
  refine .len le_rfl fun hlen => ?_
  intro _
  have h := (Yields.take (m := m) (fun pos => s!"vxlib: unexpected end of buffer (need {b.length} at {pos})")
    ⟨b, rfl⟩).bind (f := fun bytes => (pure bytes.1 : Read _)) (.done _)
  rw [append_nil] at h
  rw [hlen]
  exact h

theorem fromUTF8_toUTF8 (s : String) : String.fromUTF8? ⟨s.toUTF8.data.toList.toArray⟩ = some s := by
  simp only [String.fromUTF8?, Array.toArray_toList]
  exact dif_pos s.isValidUTF8

theorem restores_sym (s : String) : Restores m Read.sym (Write.sym s) s := by
  rw [← append_nil (Write.sym s)]
  refine (restores_bytes s.toUTF8.data.toList).bind ?_
  rw [Read.text, fromUTF8_toUTF8]
  exact .done s

theorem restores_typeid (t : TypeId) : Restores m Read.typeid (Write.typeid t) t := by
  obtain ⟨words⟩ := t
  have hwords : words = #v[words[0], words[1], words[2], words[3]] := by
    ext i hi
    interval_cases i <;> rfl
  have hbytes : Write.typeid ⟨words⟩ =
      Write.u64 words[0] ++ (Write.u64 words[1] ++ (Write.u64 words[2] ++ Write.u64 words[3])) := by
    rw [Write.typeid, hwords]
    simp
  rw [hbytes]
  nth_rewrite 5 [hwords]
  exact (restores_u64 _).bind ((restores_u64 _).bind ((restores_u64 _).bind (restores_u64 _).map))

variable {kind : Element}

theorem restores_withCapacity (hfits : Fits m n) :
    Restores m (Read.withCapacity kind n) [] () :=
  fun _ => .reserve (hfits.memory kind)

theorem Restores.vec
    (hn : n ≤ bytes.length) (h : Restores m (Program.many n item) bytes xs) :
    Restores m (Read.vec kind item) (Write.len n ++ bytes) xs := by
  intro hfits
  refine Restores.len hn (fun hlen => ?_) hfits
  rw [hlen]
  have hn' : Fits m n := hfits.mono (le_trans hn (by simp))
  exact (restores_withCapacity hn').bind h

theorem Restores.grown (hn : n ≤ bytes.length)
    (h : Restores m (Program.many n item) bytes xs) : Restores m (Read.grown item) (Write.len n ++ bytes) xs := by
  refine .len hn fun hlen => ?_
  rw [hlen]
  exact h

theorem length_le_flatMap (xs : List γ)
    (h : ∀ x ∈ xs, 0 < (encode x).length) : xs.length ≤ (xs.flatMap encode).length := by
  induction xs with
  | nil => simp
  | cons x xs ih =>
    have hx := h x (by simp)
    have hxs := ih fun y hy => h y (mem_cons_of_mem _ hy)
    simp only [flatMap_cons, length_append, length_cons]
    omega

theorem Rejects.bind (h : Rejects m p bytes) (f : α → Read β)
    (bytes' : List UInt8) : Rejects m (p >>= f) (bytes ++ bytes') := by
  intro hfits
  rw [length_append] at hfits
  exact (h (hfits.mono (Nat.le_add_right ..))).bind f bytes'

theorem Restores.bind_rejects {f : α → Read β}
    (h : Restores m p bytes x) (h' : Rejects m (f x) bytes') : Rejects m (p >>= f) (bytes ++ bytes') := by
  intro hfits
  rw [length_append] at hfits
  exact (h (hfits.mono (Nat.le_add_right ..))).bind_fails (h' (hfits.mono (Nat.le_add_left ..)))

theorem Rejects.many {xs : List γ} (value : γ → α)
    (h : ∀ x ∈ xs, Restores m item (encode x) (value x) ∨ Rejects m item (encode x))
    (hrejects : ∃ x ∈ xs, Rejects m item (encode x)) : Rejects m (Program.many xs.length item) (xs.flatMap encode) := by
  intro hfits
  have hpart : ∀ x ∈ xs, Fits m (encode x).length := fun x hx => hfits.mono (length_le_flatMap_of_mem encode hx)
  obtain ⟨x, hx, hrejects⟩ := hrejects
  exact .many (fun x hx => (h x hx).imp (· (hpart x hx)) (· (hpart x hx))) ⟨x, hx, hrejects (hpart x hx)⟩

theorem Rejects.len (hn : n ≤ bytes.length)
    (h : (BitVec.ofNat 64 n).toNat = n → Rejects m (f (BitVec.ofNat 64 n)) bytes) :
    Rejects m (Read.u64 >>= f) (Write.len n ++ bytes) := by
  intro hfits
  have hword : n < 2 ^ 64 := lt_of_le_of_lt (le_trans hn (by simp)) hfits.word
  exact (restores_u64 _).bind_rejects (h (toNat_len hword)) hfits

theorem Rejects.vec (hn : n ≤ bytes.length) (h : Rejects m (Program.many n item) bytes) :
    Rejects m (Read.vec kind item) (Write.len n ++ bytes) := by
  intro hfits
  refine Rejects.len hn (fun hlen => ?_) hfits
  rw [hlen]
  have hn' : Fits m n := hfits.mono (le_trans hn (by simp))
  exact (restores_withCapacity hn').bind_rejects h

theorem Rejects.grown (hn : n ≤ bytes.length)
    (h : Rejects m (Program.many n item) bytes) : Rejects m (Read.grown item) (Write.len n ++ bytes) := by
  refine .len hn fun hlen => ?_
  rw [hlen]
  exact h

end Vx.Interface
