import Vx.Lib.MachineInt

/-!
Strings of C, as their bytes before the terminating NUL, and the functions of its library that read numbers and
fields from them.
-/

namespace Vx.Lib.CText

open List
open MachineInt (toI32 toI32_eq)

abbrev Bytes := List UInt8

def utf8 (s : String) : Bytes := s.toList.flatMap String.utf8EncodeChar

theorem utf8_append (s t : String) : utf8 (s ++ t) = utf8 s ++ utf8 t := by
  simp [utf8]

theorem utf8_injective {s t : String} (h : utf8 s = utf8 t) : s = t := by
  have hbytes : s.toList.utf8Encode = t.toList.utf8Encode := congrArg List.toByteArray h
  rw [String.utf8Encode_toList, String.utf8Encode_toList] at hbytes
  exact String.toByteArray_inj.1 hbytes

theorem utf8EncodeChar_ascii {c : Char} (h : c.toNat < 128) : String.utf8EncodeChar c = [UInt8.ofNat c.toNat] := by
  have hle : c.val.toNat ≤ 127 := Nat.lt_succ_iff.1 h
  simp only [String.utf8EncodeChar, if_pos hle]
  rfl

variable {b : UInt8}

theorem toNat_of_mem_utf8EncodeChar {c : Char} (hb : b ∈ String.utf8EncodeChar c)
    (hascii : b.toNat < 128) : c.toNat = b.toNat := by
  by_cases hc : c.toNat < 128
  · rw [utf8EncodeChar_ascii hc, List.mem_singleton] at hb
    rw [hb, UInt8.toNat_ofNat']
    omega
  · have hnot : ¬ c.val.toNat ≤ 127 := fun hle => hc (Nat.lt_succ_iff.2 hle)
    exfalso
    simp only [String.utf8EncodeChar, if_neg hnot] at hb
    split_ifs at hb <;> simp only [mem_cons, not_mem_nil, or_false] at hb <;>
      rcases hb with rfl | rfl | rfl | rfl <;> rw [UInt8.toNat_ofNat'] at hascii <;> omega

def isDigit (b : UInt8) : Bool := 48 ≤ b && b ≤ 57

def isSpace (b : UInt8) : Bool := b == 32 || (9 ≤ b && b ≤ 13)

def numberOf (digits : Bytes) : ℕ := digits.foldl (fun n b => 10 * n + (b.toNat - 48)) 0

def signOf : Bytes → ℤ × Bytes
  | 45 :: s => (-1, s)
  | 43 :: s => (1, s)
  | s => (1, s)

def strtol (s : Bytes) : Option (ℤ × Bytes) :=
  let (sign, s) := signOf (s.dropWhile isSpace)
  let digits := s.takeWhile isDigit
  if digits = [] then none
  else some (max (-2 ^ 63) (min (2 ^ 63 - 1) (sign * numberOf digits)), s.dropWhile isDigit)

def literal : Bytes → Bytes → Option Bytes
  | [], s => some s
  | _ :: _, [] => none
  | c :: cs, b :: s => if c = b then literal cs s else none

theorem literal_append (head s : Bytes) : literal head (head ++ s) = some s := by
  induction head with
  | nil => rfl
  | cons c cs ih => simpa [literal] using ih

variable {rest : Bytes}

theorem literal_eq_some {head s : Bytes} (h : literal head s = some rest) : s = head ++ rest := by
  induction head generalizing s with
  | nil =>
    cases h
    rfl
  | cons c cs ih =>
    cases s with
    | nil => cases h
    | cons b s =>
      rw [literal] at h
      split at h
      case isTrue heq => rw [heq, ih h, cons_append]
      case isFalse => cases h

def scanInt (head s : Bytes) : Option ℤ := do
  let (value, _) ← strtol (← literal head s)
  return toI32 value

variable {digits : Bytes}

theorem takeWhile_digits (hd : ∀ b ∈ digits, isDigit b = true)
    (hr : ∀ b ∈ rest.head?, isDigit b = false) : (digits ++ rest).takeWhile isDigit = digits := by
  rw [takeWhile_append_of_pos hd]
  cases rest with
  | nil => simp
  | cons b rest =>
    have := hr b rfl
    simp [this]

theorem not_space_of_digit (h : isDigit b = true) : isSpace b = false := by
  simp only [isDigit, isSpace, Bool.and_eq_true, decide_eq_true_eq, Bool.or_eq_false_iff, beq_eq_false_iff_ne,
    Bool.and_eq_false_iff, decide_eq_false_iff_not, UInt8.le_iff_toNat_le] at h ⊢
  refine ⟨?_, .inr ?_⟩
  · rintro rfl
    exact absurd h.1 (by decide)
  · have h9 : (13 : UInt8).toNat = 13 := rfl
    have h48 : (48 : UInt8).toNat = 48 := rfl
    omega

theorem signOf_digit (s : Bytes) (h : isDigit b = true) : signOf (b :: s) = (1, b :: s) := by
  unfold signOf
  split
  case h_1 heq =>
    cases heq
    cases h
  case h_2 heq =>
    cases heq
    cases h
  case h_3 => rfl

theorem strtol_digits (hne : digits ≠ []) (hd : ∀ b ∈ digits, isDigit b = true)
    (hr : ∀ b ∈ rest.head?, isDigit b = false) (hmax : numberOf digits < 2 ^ 63) :
    strtol (digits ++ rest) = some ((numberOf digits : ℤ), rest) := by
  cases digits with
  | nil => exact absurd rfl hne
  | cons b ds =>
    have hb := hd b mem_cons_self
    have hspace : ((b :: ds) ++ rest).dropWhile isSpace = (b :: ds) ++ rest := by
      simp [not_space_of_digit hb]
    have hsign : signOf ((b :: ds) ++ rest) = (1, (b :: ds) ++ rest) := signOf_digit _ hb
    have htake := takeWhile_digits hd hr
    have hdrop : ((b :: ds) ++ rest).dropWhile isDigit = rest := by
      have := takeWhile_append_dropWhile (p := isDigit) (l := (b :: ds) ++ rest)
      rw [htake] at this
      exact append_cancel_left this
    simp only [strtol, hspace, hsign, htake, hdrop, if_neg hne, Option.some.injEq, Prod.mk.injEq, and_true]
    omega

theorem scanInt_digits (head : Bytes) (hne : digits ≠ [])
    (hd : ∀ b ∈ digits, isDigit b = true) (hr : ∀ b ∈ rest.head?, isDigit b = false) (hmax : numberOf digits < 2 ^ 31) :
    scanInt head (head ++ (digits ++ rest)) = some (numberOf digits : ℤ) := by
  have hnumber := strtol_digits hne hd hr (by omega)
  have hint : toI32 (numberOf digits : ℤ) = numberOf digits := toI32_eq (by omega) (by omega)
  simp [scanInt, literal_append, hnumber, hint]

theorem scanInt_eq_none {head s : Bytes} (h : ∀ rest, s ≠ head ++ rest) : scanInt head s = none := by
  unfold scanInt
  cases hl : literal head s with
  | none => rfl
  | some rest => exact absurd (literal_eq_some hl) (h rest)

section

def cString (buffer : Bytes) : Bytes := buffer.takeWhile fun b => b ≠ 0

theorem cString_eq {buffer : Bytes} (h : (0 : UInt8) ∉ buffer) : cString buffer = buffer := by
  have hall : ∀ b ∈ buffer, decide (b ≠ 0) = true := by
    intro b hb
    have hne : b ≠ 0 := fun hzero => h (hzero ▸ hb)
    simpa using hne
  have htake : (buffer ++ []).takeWhile (fun b => decide (b ≠ 0)) = buffer ++ [] := takeWhile_append_of_pos hall
  rwa [append_nil] at htake

variable (delim : UInt8 → Bool)

def strtok (s : Bytes) : Option (Bytes × Bytes) :=
  match s.dropWhile delim with
  | [] => none
  | b :: t => some ((b :: t).takeWhile fun c => !delim c, ((b :: t).dropWhile fun c => !delim c).drop 1)

def fields (s : Bytes) : List Bytes := (s.splitOnP delim).filter fun field => field ≠ []

variable {delim}

theorem fields_cons_delim (s : Bytes) (hb : delim b = true) : fields delim (b :: s) = fields delim s := by
  simp [fields, splitOnP_cons_eq_if_modifyHead, hb]

variable (delim) in
theorem fields_dropWhile (s : Bytes) : fields delim (s.dropWhile delim) = fields delim s := by
  induction s with
  | nil => rfl
  | cons b s ih =>
    by_cases hb : delim b = true
    · rw [dropWhile_cons_of_pos hb, ih, fields_cons_delim s hb]
    · rw [dropWhile_cons_of_neg hb]

theorem fields_nil : fields delim [] = [] := rfl

theorem fields_cons_field (t : Bytes) (hb : delim b = false) :
    fields delim (b :: t) = (b :: t).takeWhile (fun c => !delim c) ::
      fields delim (((b :: t).dropWhile fun c => !delim c).drop 1) := by
  set field := (b :: t).takeWhile fun c => !delim c with hfield
  have hnodelim : ∀ c ∈ field, delim c = false := by
    intro c hc
    have hall : field.all (fun c => !delim c) = true := all_takeWhile
    simpa using List.all_eq_true.1 hall c hc
  have hne : field ≠ [] := by simp [hfield, hb]
  have hsplit : b :: t = field ++ (b :: t).dropWhile fun c => !delim c := List.takeWhile_append_dropWhile.symm
  cases hrest : (b :: t).dropWhile fun c => !delim c with
  | nil =>
    rw [hrest, append_nil] at hsplit
    have hone : (b :: t).splitOnP delim = [field] := by
      rw [hsplit]
      exact splitOnP_eq_singleton hnodelim
    simp [fields, hone, hne]
  | cons d rest =>
    have hd : delim d = true := by
      have hhead := head_dropWhile_not (fun c => !delim c) (l := b :: t) (by rw [hrest]; simp)
      simpa [hrest] using hhead
    rw [hrest] at hsplit
    have hmany : (b :: t).splitOnP delim = field :: rest.splitOnP delim := by
      rw [hsplit]
      exact splitOnP_append_cons_of_forall_mem hnodelim d hd rest
    simp [fields, hmany, hne]

variable (delim) in
theorem strtok_eq (s : Bytes) : (strtok delim s = none ∧ fields delim s = []) ∨
      ∃ field rest, strtok delim s = some (field, rest) ∧ fields delim s = field :: fields delim rest := by
  cases hdrop : s.dropWhile delim with
  | nil =>
    left
    refine ⟨by simp [strtok, hdrop], ?_⟩
    rw [← fields_dropWhile, hdrop, fields_nil]
  | cons b t =>
    right
    have hb : delim b = false := by
      have hhead := head_dropWhile_not delim (l := s) (by rw [hdrop]; simp)
      simpa [hdrop] using hhead
    have htok : strtok delim s = some ((b :: t).takeWhile (fun c => !delim c),
        ((b :: t).dropWhile fun c => !delim c).drop 1) := by
      simp only [strtok, hdrop]
    refine ⟨_, _, htok, ?_⟩
    rw [← fields_dropWhile, hdrop, fields_cons_field t hb]

theorem fields_append_delim (s : Bytes) (hb : delim b = true) : fields delim (s ++ [b]) = fields delim s := by
  have hsplit : (s ++ [b]).splitOnP delim = s.splitOnP delim ++ [[]] := by
    induction s with
    | nil => simp [splitOnP_cons_eq_if_modifyHead, hb]
    | cons c s ih =>
      rw [cons_append, splitOnP_cons_eq_if_modifyHead, splitOnP_cons_eq_if_modifyHead, ih]
      split
      · rfl
      · cases hs : s.splitOnP delim with
        | nil => exact absurd hs (splitOnP_ne_nil _ _)
        | cons l ls => simp
  simp [fields, hsplit]

end

def fgets : ℕ → Bytes → Bytes × Bytes
  | 0, s => ([], s)
  | _ + 1, [] => ([], [])
  | room + 1, b :: s => if b = 10 then ([b], s) else (b :: (fgets room s).1, (fgets room s).2)

variable {line : Bytes}

theorem fgets_line {room : ℕ} (s : Bytes) (hline : (10 : UInt8) ∉ line) (hroom : line.length < room) :
    fgets room (line ++ 10 :: s) = (line ++ [10], s) := by
  induction line generalizing room with
  | nil =>
    cases room with
    | zero => cases hroom
    | succ room => simp [fgets]
  | cons b line ih =>
    cases room with
    | zero => cases hroom
    | succ room =>
      obtain ⟨hb, hout⟩ := not_or.1 (mt List.mem_cons.2 hline)
      have hrest := ih hout (by simpa using hroom)
      rw [cons_append, fgets, if_neg (Ne.symm hb), hrest]
      rfl

theorem fgets_full (s : Bytes) (hline : (10 : UInt8) ∉ line) : fgets line.length (line ++ s) = (line, s) := by
  induction line with
  | nil => rfl
  | cons b line ih =>
    obtain ⟨hb, hout⟩ := not_or.1 (mt List.mem_cons.2 hline)
    rw [length_cons, cons_append, fgets, if_neg (Ne.symm hb), ih hout]

theorem fgets_last {room : ℕ} (hline : (10 : UInt8) ∉ line) (hroom : line.length ≤ room) :
    fgets room line = (line, []) := by
  induction line generalizing room with
  | nil => cases room <;> rfl
  | cons b line ih =>
    cases room with
    | zero => simp at hroom
    | succ room =>
      obtain ⟨hb, hout⟩ := not_or.1 (mt List.mem_cons.2 hline)
      rw [fgets, if_neg (Ne.symm hb), ih hout (by simpa using hroom)]

def lines (s : Bytes) : List Bytes := s.splitOnP fun b => b = 10

theorem lines_of_not_mem {s : Bytes} (h : (10 : UInt8) ∉ s) : lines s = [s] := by
  apply splitOnP_eq_singleton
  intro b hb
  have hne : b ≠ 10 := fun heq => h (heq ▸ hb)
  simpa using hne

theorem lines_append (s : Bytes) (h : (10 : UInt8) ∉ line) : lines (line ++ 10 :: s) = line :: lines s := by
  apply splitOnP_append_cons_of_forall_mem
  · intro b hb
    have hne : b ≠ 10 := fun heq => h (heq ▸ hb)
    simpa using hne
  · simp

theorem first_line (s : Bytes) : (10 : UInt8) ∉ s ∨ ∃ line rest, s = line ++ 10 :: rest ∧ (10 : UInt8) ∉ line := by
  by_cases h : (10 : UInt8) ∈ s
  · right
    obtain ⟨line, rest, hs, hout⟩ := eq_append_cons_of_mem h
    exact ⟨line, rest, hs, hout⟩
  · exact .inl h

theorem mem_of_mem_line {s line : Bytes} {b : UInt8} (hline : line ∈ lines s) (hb : b ∈ line) : b ∈ s := by
  induction hn : s.length using Nat.strong_induction_on generalizing s with
  | _ n ih =>
    rcases first_line s with hlast | ⟨first, rest, rfl, hfirst⟩
    · rw [lines_of_not_mem hlast, List.mem_singleton] at hline
      rwa [← hline]
    · rw [lines_append rest hfirst] at hline
      rcases List.mem_cons.mp hline with rfl | hline
      · exact mem_append_left _ hb
      · have hin := ih rest.length (by rw [← hn]; simp; omega) hline rfl
        exact mem_append_right _ (mem_cons_of_mem _ hin)

end Vx.Lib.CText
