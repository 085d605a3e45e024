import Vx.Fleet.Model

namespace Vx.Fleet

open List Option
open Lib.CText

def lineSize : ℕ := 512

def blank (b : UInt8) : Bool := b == 32 || b == 9 || b == 13 || b == 10

inductive Parsed
  | entry (m : Manifest)
  | skipped
  | malformed
deriving DecidableEq, Repr

def uncommented (line : Bytes) : Bytes := line.takeWhile fun b => b ≠ 35

def parseLine (m : Manifest) (line : Bytes) : Parsed :=
  if lineSize ≤ line.length then .malformed
  else
    let p := (uncommented line).dropWhile blank
    if p = [] then .skipped
    else match strtok blank p with
      | none => .malformed
      | some (name, rest) => match strtok blank rest with
        | none => .malformed
        | some (host, rest) => match strtok blank rest with
          | none => .malformed
          | some (portText, rest) =>
            if (strtok blank rest).isSome then .malformed
            else match strtol portText with
              | none => .malformed
              | some (port, stop) =>
                if stop ≠ [] ∨ port ≤ 0 ∨ 65535 < port then .malformed
                else match m.add (some name) (some host) port with
                  | some m' => .entry m'
                  | none => .malformed

/-- The loop over the pieces `fgets` reads, `false` where it returns -1, and the table it leaves. Each turn reads at
least one byte. -/
def loadLoop : ℕ → Manifest → Bytes → Bool × Manifest
  | 0, m, _ => (true, m)
  | fuel + 1, m, s =>
    if s = [] then (true, m)
    else
      let (line, rest) := fgets (lineSize - 1) s
      match parseLine m (cString line) with
      | .malformed => (false, m)
      | .skipped => loadLoop fuel m rest
      | .entry m' => loadLoop fuel m' rest

def load : Option Bytes → ℤ × Manifest
  | none => (0, Manifest.init)
  | some content =>
    let (ok, m) := loadLoop content.length Manifest.init content
    (if ok then 1 else -1, m)

inductive Line
  | nothing
  | worker (name host : Bytes) (port : ℤ)
  | illFormed

def Line.ofFields : List Bytes → Line
  | [] => .nothing
  | [name, host, portText] =>
    match strtol portText with
    | some (port, []) => if 0 < port ∧ port ≤ 65535 then .worker name host port else .illFormed
    | _ => .illFormed
  | _ => .illFormed

def lineOf (line : Bytes) : Line := Line.ofFields (fields blank (uncommented line))

inductive Reads : Manifest → List Bytes → Manifest → Prop
  | done (m : Manifest) : Reads m [] m
  | nothing {m m' : Manifest} {line : Bytes} {rest : List Bytes} (hline : lineOf line = .nothing)
      (hrest : Reads m rest m') : Reads m (line :: rest) m'
  | worker {m m' m'' : Manifest} {line : Bytes} {rest : List Bytes} {name host : Bytes} {port : ℤ}
      (hline : lineOf line = .worker name host port) (hadd : m.add (some name) (some host) port = some m')
      (hrest : Reads m' rest m'') : Reads m (line :: rest) m''

def workerOf (line : Bytes) : Option (Bytes × Bytes × ℤ) :=
  match lineOf line with
  | .worker name host port => some (name, host, port)
  | _ => none

def Manifest.listed (m : Manifest) : List (Bytes × Bytes × ℤ) := m.workers.map fun w => (w.name, w.host, w.port)

theorem Reads.listed {m m' : Manifest} {rows : List Bytes} (h : Reads m rows m') :
    m'.listed = m.listed ++ rows.filterMap workerOf := by
  induction h with
  | done m => simp
  | nothing hline hrest ih => simpa [workerOf, hline] using ih
  | worker hline hadd hrest ih =>
    obtain ⟨n, t, hn, ht, -, rfl⟩ := add_eq_some hadd
    cases hn
    cases ht
    rw [ih]
    simp [Manifest.listed, workerOf, hline]

/-- A file is read line by line: the call succeeds where each line can be read after those before it, and the table
then holds the workers of the lines in order. -/
structure ReadByLine (content : Bytes) : Prop where
  succeeds : ∀ m, load (some content) = (1, m) ↔ Reads Manifest.init (lines content) m
  holds : ∀ m, load (some content) = (1, m) → m.listed = (lines content).filterMap workerOf

def Parsed.after (m : Manifest) : Parsed → Option Manifest
  | .entry m' => some m'
  | .skipped => some m
  | .malformed => none

def Line.after (m : Manifest) : Line → Option Manifest
  | .nothing => some m
  | .worker name host port => m.add (some name) (some host) port
  | .illFormed => none

theorem dropWhile_eq_nil_iff (s : Bytes) : s.dropWhile blank = [] ↔ fields blank s = [] := by
  rw [← fields_dropWhile]
  cases hdrop : s.dropWhile blank with
  | nil => exact iff_of_true rfl rfl
  | cons b t =>
    have hb : blank b = false := by
      have hhead := head_dropWhile_not blank (l := s) (by rw [hdrop]; simp)
      simpa [hdrop] using hhead
    rw [fields_cons_field t hb]
    exact iff_of_false (cons_ne_nil _ _) (cons_ne_nil _ _)

theorem parseLine_after (m : Manifest) {line : Bytes} (h : line.length < lineSize) :
    (parseLine m line).after m = (lineOf line).after m := by
  unfold parseLine lineOf
  rw [if_neg (Nat.not_le.2 h)]
  have hfields := fields_dropWhile blank (uncommented line)
  by_cases hnil : (uncommented line).dropWhile blank = []
  · rw [if_pos hnil, (dropWhile_eq_nil_iff _).1 hnil]
    rfl
  rw [if_neg hnil, ← hfields]
  rcases strtok_eq blank ((uncommented line).dropWhile blank) with ⟨-, hnone⟩ | ⟨name, s₁, ht, hf⟩
  · rw [hfields] at hnone
    exact absurd ((dropWhile_eq_nil_iff _).2 hnone) hnil
  rw [ht, hf]
  dsimp only
  rcases strtok_eq blank s₁ with ⟨ht, hf⟩ | ⟨host, s₂, ht, hf⟩
  · rw [ht, hf]
    rfl
  rw [ht, hf]
  dsimp only
  rcases strtok_eq blank s₂ with ⟨ht, hf⟩ | ⟨portText, s₃, ht, hf⟩
  · rw [ht, hf]
    rfl
  rw [ht, hf]
  dsimp only
  rcases strtok_eq blank s₃ with ⟨ht, hf⟩ | ⟨fourth, s₄, ht, hf⟩
  · rw [ht, hf, if_neg (by simp)]
    unfold Line.ofFields
    dsimp only
    cases hport : strtol portText with
    | none => rfl
    | some read =>
      obtain ⟨port, stop⟩ := read
      cases stop with
      | cons b stop => rfl
      | nil =>
        dsimp only
        by_cases hrange : 0 < port ∧ port ≤ 65535
        · rw [if_neg (by simpa using hrange), if_pos hrange, Line.after]
          cases m.add (some name) (some host) port <;> rfl
        have hout : ([] : Bytes) ≠ [] ∨ port ≤ 0 ∨ 65535 < port := by
          right
          omega
        rw [if_pos hout, if_neg hrange]
        rfl
  · rw [ht, hf]
    rfl

theorem lineOf_newline (line : Bytes) : lineOf (line ++ [10]) = lineOf line := by
  have hfields : fields blank (uncommented (line ++ [10])) = fields blank (uncommented line) := by
    unfold uncommented
    rw [takeWhile_append]
    split
    case isTrue hlen =>
      have hline := (takeWhile_sublist (fun b => decide (b ≠ 35))).eq_of_length hlen
      rw [hline]
      exact fields_append_delim line rfl
    case isFalse => rfl
  rw [lineOf, hfields, lineOf]

section

def accepted : Bool × Manifest → Option Manifest
  | (true, m) => some m
  | (false, _) => none

def loaded (fuel : ℕ) (m : Manifest) (s : Bytes) : Option Manifest := accepted (loadLoop fuel m s)

theorem loaded_nil (fuel : ℕ) (m : Manifest) : loaded fuel m [] = some m := by
  cases fuel <;> rfl

variable {m : Manifest}

theorem loaded_piece {fuel : ℕ} {s line rest : Bytes} (hs : s ≠ [])
    (hread : fgets (lineSize - 1) s = (line, rest)) (hnul : (0 : UInt8) ∉ line) (hlen : line.length < lineSize) :
    loaded (fuel + 1) m s = ((lineOf line).after m).bind fun m' => loaded fuel m' rest := by
  rw [← parseLine_after m hlen, loaded, loadLoop, if_neg hs, hread]
  dsimp only
  rw [cString_eq hnul]
  cases parseLine m line <;> rfl

variable {m' : Manifest}

theorem reads_cons {line : Bytes} {rest : List Bytes} :
    Reads m (line :: rest) m' ↔ ∃ m₁, (lineOf line).after m = some m₁ ∧ Reads m₁ rest m' := by
  constructor
  · intro h
    cases h with
    | nothing hline hrest => exact ⟨m, by rw [hline]; rfl, hrest⟩
    | worker hline hadd hrest => exact ⟨_, by rw [hline]; exact hadd, hrest⟩
  · rintro ⟨m₁, hafter, hrest⟩
    cases hline : lineOf line with
    | nothing =>
      rw [hline] at hafter
      cases hafter
      exact .nothing hline hrest
    | worker name host port =>
      rw [hline] at hafter
      exact .worker hline hafter hrest
    | illFormed =>
      rw [hline] at hafter
      cases hafter

theorem reads_nil : Reads m [] m' ↔ m = m' := by
  constructor
  · intro h
    cases h
    rfl
  · rintro rfl
    exact .done m

theorem lineOf_nil : lineOf [] = .nothing := rfl

theorem reads_empty_line {rest : List Bytes} : Reads m ([] :: rest) m' ↔ Reads m rest m' := by
  rw [reads_cons, lineOf_nil]
  simp [Line.after]

/-- The lines up to the first one that is refused fit the buffer and have no NUL byte. -/
def Plain (m : Manifest) : List Bytes → Prop
  | [] => True
  | line :: rest =>
    (0 : UInt8) ∉ line ∧ line.length < lineSize ∧ ∀ m', (lineOf line).after m = some m' → Plain m' rest

theorem loaded_eq_some {fuel : ℕ} {s : Bytes} (hfuel : s.length ≤ fuel) (hplain : Plain m (lines s)) :
    loaded fuel m s = some m' ↔ Reads m (lines s) m' := by
  induction fuel using Nat.strong_induction_on generalizing m s with
  | _ fuel ih =>
    rcases first_line s with hlast | ⟨line, rest, rfl, hline⟩
    · rw [lines_of_not_mem hlast] at hplain ⊢
      by_cases hs : s = []
      · subst hs
        rw [loaded_nil, reads_empty_line, reads_nil, Option.some.injEq]
      have hpos : 0 < s.length := length_pos_of_ne_nil hs
      obtain ⟨hnul, hlen, -⟩ := hplain
      obtain ⟨fuel, rfl⟩ : ∃ k, fuel = k + 1 := ⟨fuel - 1, by omega⟩
      have hread : fgets (lineSize - 1) s = (s, []) := fgets_last hlast (by omega)
      rw [loaded_piece hs hread hnul hlen, reads_cons, bind_eq_some_iff]
      simp only [loaded_nil, reads_nil, Option.some.injEq]
    · have hne : line ++ 10 :: rest ≠ [] := by simp
      rw [lines_append rest hline] at hplain ⊢
      obtain ⟨hnul, hlen, hrest⟩ := hplain
      rw [length_append, length_cons] at hfuel
      obtain ⟨fuel, rfl⟩ : ∃ k, fuel = k + 1 := ⟨fuel - 1, by omega⟩
      rcases Nat.lt_or_eq_of_le (Nat.le_sub_one_of_lt hlen) with hroom | hfull
      · have hread := fgets_line rest hline hroom
        have hpiece : (line ++ [10]).length < lineSize := by
          rw [length_append, length_singleton]
          omega
        rw [loaded_piece hne hread (by simp [hnul]) hpiece, lineOf_newline, reads_cons, bind_eq_some_iff]
        exact exists_congr fun m₁ => and_congr_right fun hafter => ih fuel (by omega) (by omega) (hrest m₁ hafter)
      · have hread : fgets (lineSize - 1) (line ++ 10 :: rest) = (line, 10 :: rest) := by
          rw [← hfull]
          exact fgets_full (10 :: rest) hline
        rw [loaded_piece hne hread hnul hlen, reads_cons, bind_eq_some_iff]
        have hsize : lineSize = 512 := rfl
        obtain ⟨fuel, rfl⟩ : ∃ k, fuel = k + 1 := ⟨fuel - 1, by omega⟩
        -- the newline left over is a piece of its own, and a blank one
        have hskip : ∀ m₁, loaded (fuel + 1) m₁ (10 :: rest) = loaded fuel m₁ rest := fun _ => rfl
        simp only [hskip]
        exact exists_congr fun m₁ => and_congr_right fun hafter => ih fuel (by omega) (by omega) (hrest m₁ hafter)

theorem load_eq_loaded {content : Bytes} :
    load (some content) = (1, m) ↔ loaded content.length Manifest.init content = some m := by
  have hload : load (some content) = (if (loadLoop content.length Manifest.init content).1 then 1 else -1,
      (loadLoop content.length Manifest.init content).2) := rfl
  rw [hload, loaded]
  generalize loadLoop content.length Manifest.init content = result
  obtain ⟨ok, m'⟩ := result
  cases ok <;> simp [accepted]

theorem readByLine_of_plain {content : Bytes} (hplain : Plain Manifest.init (lines content)) : ReadByLine content := by
  have hreads : ∀ m, load (some content) = (1, m) ↔ Reads Manifest.init (lines content) m := by
    intro m
    rw [load_eq_loaded]
    exact loaded_eq_some (Nat.le_refl _) hplain
  refine ⟨hreads, ?_⟩
  intro m hload
  have hlisted := ((hreads m).1 hload).listed
  rwa [show Manifest.init.listed = [] from rfl, nil_append] at hlisted

theorem plain_of_forall {rows : List Bytes} (h : ∀ line ∈ rows, (0 : UInt8) ∉ line ∧ line.length < lineSize) :
    Plain m rows := by
  induction rows generalizing m with
  | nil => trivial
  | cons line rows ih =>
    obtain ⟨hnul, hlen⟩ := h line mem_cons_self
    exact ⟨hnul, hlen, fun m' _ => ih fun l hl => h l (mem_cons_of_mem _ hl)⟩

end

structure FileScope where
  longest : ℕ
  nul : Bool

def FileScope.Has (scope : FileScope) (content : Bytes) : Prop :=
  (∀ line ∈ lines content, line.length ≤ scope.longest) ∧ (scope.nul = false → (0 : UInt8) ∉ content)

def longComment : Bytes := 35 :: List.replicate 511 120

theorem longComment_refused : (load (some longComment)).1 = -1 := by
  decide +kernel

theorem longComment_reads : Reads Manifest.init (lines longComment) Manifest.init := by
  have hlines : lines longComment = [longComment] := lines_of_not_mem (by decide +kernel)
  have hcomment : lineOf longComment = .nothing := rfl
  rw [hlines]
  exact .nothing hcomment (.done _)

theorem not_readByLine_longComment : ¬ ReadByLine longComment := by
  intro h
  have hload := (h.succeeds Manifest.init).2 longComment_reads
  have hrefused := longComment_refused
  rw [hload] at hrefused
  cases hrefused

theorem not_readByLine_nul : ¬ ReadByLine [0] := by
  intro h
  have hreads := (h.succeeds Manifest.init).1 rfl
  obtain ⟨m, hafter, -⟩ := reads_cons.1 hreads
  cases hafter

def commentedWorker : Bytes := 35 :: (List.replicate 510 120 ++ utf8 "W h 9")

/-- The tail of a long comment adds a worker, or makes the call return -1. -/
theorem comment_tail_is_parsed : (lines commentedWorker).filterMap workerOf = [] ∧
    (load (some commentedWorker)).1 = 1 ∧ (load (some commentedWorker)).2.listed = [(utf8 "W", utf8 "h", 9)] ∧
    lineOf longComment = .nothing ∧ load (some longComment) = (-1, Manifest.init) := by
  refine ⟨?_, by decide +kernel, by decide +kernel, rfl, by decide +kernel⟩
  rw [show lines commentedWorker = [commentedWorker] from lines_of_not_mem (by decide +kernel)]
  rfl

/-- A file is read by line when its lines up to the first refused one fit the buffer and have no NUL byte. Of the files with
a longest line, with or without NUL bytes, all are read by line exactly when that line fits and there is no NUL byte. -/
theorem read_by_line_iff (scope : FileScope) :
    (∀ content, Plain Manifest.init (lines content) → ReadByLine content) ∧
    ((∀ content, scope.Has content → ReadByLine content) ↔
      scope.longest ≤ 511 ∧ (scope.nul = false ∨ scope.longest = 0)) := by
  refine ⟨fun content hplain => readByLine_of_plain hplain, ?_⟩
  constructor
  · intro h
    constructor
    · by_contra hlong
      apply not_readByLine_longComment
      apply h
      have hlines : lines longComment = [longComment] := lines_of_not_mem (by decide +kernel)
      have hlength : longComment.length = 512 := by decide +kernel
      refine ⟨?_, fun _ => by decide +kernel⟩
      intro line hline
      rw [hlines, List.mem_singleton] at hline
      rw [hline, hlength]
      omega
    · by_contra hnul
      rw [not_or, Bool.not_eq_false] at hnul
      apply not_readByLine_nul
      apply h
      refine ⟨?_, fun hfalse => absurd hnul.1 (by rw [hfalse]; decide)⟩
      intro line hline
      have hlines : lines [0] = [[0]] := rfl
      rw [hlines, List.mem_singleton] at hline
      rw [hline]
      exact Nat.pos_of_ne_zero hnul.2
  · rintro ⟨hlong, hnul⟩ content ⟨hshort, hfree⟩
    refine readByLine_of_plain (plain_of_forall fun line hline => ⟨fun hmem => ?_, ?_⟩)
    · rcases hnul with hnul | hzero
      · exact hfree hnul (mem_of_mem_line hline hmem)
      · have hlength := hshort line hline
        rw [hzero] at hlength
        rw [eq_nil_of_length_eq_zero (Nat.le_zero.1 hlength)] at hmem
        cases hmem
    · exact Nat.lt_of_le_of_lt ((hshort line hline).trans hlong) (by decide)

/-- The first line is refused, so the line after it, which does not fit the buffer, is never read. -/
theorem read_by_line_iff_refused : ReadByLine (utf8 "W h" ++ 10 :: longComment) := by
  refine (read_by_line_iff ⟨511, false⟩).1 _ ?_
  rw [lines_append longComment (by decide)]
  refine ⟨by decide, by decide, fun m' hafter => ?_⟩
  cases hafter

end Vx.Fleet
