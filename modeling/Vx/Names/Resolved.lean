import Vx.Names.Visible

namespace Vx.Names

open List Option
open Lib (OrderedSet)
open Lib.TaggedKey (Text)

section

/-- The bracket that is still open, with what stands before it. Tokens before a place are listed backwards. -/
def openBracket : ℕ → List TokenKind → Option (TokenKind × List TokenKind)
  | _, [] => none
  | closed, kind :: before =>
    match kind with
    | .rightBrace | .rightParen | .rightBracket => openBracket (closed + 1) before
    | .leftBrace | .leftParen | .leftBracket =>
      match closed with
      | 0 => some (kind, before)
      | closed + 1 => openBracket closed before
    | _ => openBracket closed before

/-- The item whose body a brace opens: the last one at the top level, with no brace in between. -/
def itemBefore : List TokenKind → Option Scope
  | [] => none
  | kind :: before =>
    match kind with
    | .leftBrace => none
    | .enumKeyword => if openBracket 0 before = none then some .enumBody else itemBefore before
    | .implKeyword | .traitKeyword => if openBracket 0 before = none then some .itemBody else itemBefore before
    | _ => itemBefore before

def opened : TokenKind × List TokenKind → Scope
  | (.leftBrace, before) => (itemBefore before).getD .block
  | _ => .paren

def enclosing (before : List TokenKind) : Option Scope := (openBracket 0 before).map opened

def inImport : List TokenKind → Bool
  | [] => false
  | .importKeyword :: _ => true
  | .semicolon :: _ => false
  | _ :: before => inImport before

def previous (before : List TokenKind) : Option TokenKind := before.find? (· ≠ .trivia)

/-- An identifier that is not in an import path, and is no member, no variant, no method that is declared and no field. -/
def IsUse (before : List TokenKind) (rest : List Token) : Prop :=
  inImport before = false ∧ previous before ≠ some .dot ∧ previous before ≠ some .doubleColon ∧
    enclosing before ≠ some .enumBody ∧
    ¬ (enclosing before = some .itemBody ∧ previous before = some .fnKeyword) ∧
    ¬ (enclosing before = some .block ∧ nextKind rest = some .colon ∧
      (previous before = some .leftBrace ∨ previous before = some .comma))

instance (before : List TokenKind) (rest : List Token) : Decidable (IsUse before rest) := by
  unfold IsUse
  infer_instance

def useOf (before : List TokenKind) (rest : List Token) (token : Token) : Option Text :=
  match token.kind with
  | .identifier text => if IsUse before rest then some text else none
  | _ => none

def usesFrom : List TokenKind → List Token → List Text
  | _, [] => []
  | before, token :: rest => (useOf before rest token).toList ++ usesFrom (token.kind :: before) rest

def uses (tokens : List Token) : List Text := usesFrom [] tokens

def mapUse (f : Text → Text) (before : List TokenKind) (rest : List Token) (token : Token) : Token :=
  match useOf before rest token with
  | some text => { token with kind := .identifier (f text) }
  | none => token

def mapUsesFrom (f : Text → Text) : List TokenKind → List Token → List Token
  | _, [] => []
  | before, token :: rest => mapUse f before rest token :: mapUsesFrom f (token.kind :: before) rest

def mapUses (f : Text → Text) (tokens : List Token) : List Token := mapUsesFrom f [] tokens

def scanAfter : List TokenKind → Scan
  | [] => .start
  | kind :: before => (scanAfter before).step kind

/-- The scan keeps the scopes of the brackets that are still open, and the item whose body comes next. -/
theorem scanAfter_scopes (before : List TokenKind) :
    (∀ closed, ((scanAfter before).scopes.drop closed).head? = (openBracket closed before).map opened) ∧
      (scanAfter before).nextBrace = itemBefore before := by
  induction before with
  | nil => exact ⟨fun closed => by simp [scanAfter, Scan.start, openBracket], rfl⟩
  | cons kind before ih =>
    obtain ⟨hscopes, hbrace⟩ := ih
    have htop : (scanAfter before).scopes = [] ↔ openBracket 0 before = none := by
      rw [← Option.map_eq_none_iff (f := opened), ← hscopes 0, drop_zero, head?_eq_none_iff]
    cases kind with
    | leftBrace | leftParen | leftBracket =>
      refine ⟨fun closed => ?_, by simp [scanAfter, Scan.step, itemBefore, hbrace]⟩
      cases closed with
      | zero => simp [scanAfter, Scan.step, openBracket, opened, hbrace]
      | succ closed => simpa [scanAfter, Scan.step, openBracket] using hscopes closed
    | rightBrace | rightParen | rightBracket =>
      refine ⟨fun closed => ?_, by simp [scanAfter, Scan.step, itemBefore, hbrace]⟩
      simpa [scanAfter, Scan.step, openBracket, drop_tail] using hscopes (closed + 1)
    | enumKeyword | implKeyword | traitKeyword =>
      simp only [scanAfter, Scan.step, openBracket, itemBefore, htop]
      by_cases hopen : openBracket 0 before = none
      · simpa [hopen] using hscopes
      · simpa [hopen, hbrace] using hscopes
    | _ => exact ⟨fun closed => by simpa [scanAfter, Scan.step, openBracket] using hscopes closed,
        by simp [scanAfter, Scan.step, itemBefore, hbrace]⟩

theorem scanAfter_inImport (before : List TokenKind) :
    (scanAfter before).inImport = inImport before ∧ (scanAfter before).prev = previous before := by
  induction before with
  | nil => exact ⟨rfl, rfl⟩
  | cons kind before ih =>
    obtain ⟨himport, hprev⟩ := ih
    cases kind with
    | enumKeyword | implKeyword | traitKeyword =>
      simp only [scanAfter, Scan.step]
      split_ifs <;> simp_all [inImport, previous]
    | _ => simp_all [scanAfter, Scan.step, inImport, previous]

/-- The scanner takes for a use what is one. -/
theorem isUse_scanAfter (before : List TokenKind) (rest : List Token) :
    (scanAfter before).isUse rest = true ↔ IsUse before rest := by
  have hscope : (scanAfter before).scopes.head? = enclosing before := by
    simpa [enclosing] using (scanAfter_scopes before).1 0
  obtain ⟨himport, hprev⟩ := scanAfter_inImport before
  simp only [Scan.isUse, IsUse, hscope, himport, hprev, Bool.and_eq_true, Bool.not_eq_true', Bool.or_eq_false_iff,
    Bool.and_eq_false_iff, decide_eq_false_iff_not]
  tauto

def newName (get : Text → Option Rename) (name : Text) : Text :=
  match get name with
  | some (.to new) => new
  | _ => name

variable {get : Text → Option Rename} {rest : List Token} {token : Token}

theorem renameToken_of_none {before : List TokenKind}
    (h : useOf before rest token = none) : renameToken get (scanAfter before) rest token = .ok token := by
  unfold useOf at h
  unfold renameToken
  split
  next text hkind =>
    rw [hkind] at h
    dsimp only at h
    have huse : (scanAfter before).isUse rest = false := by
      by_contra huse
      rw [if_pos ((isUse_scanAfter before rest).mp (Bool.eq_true_of_not_eq_false huse))] at h
      cases h
    split
    · rfl
    · rw [huse]
      rfl
  next => rfl

theorem renameToken_of_some {before : List TokenKind} {text : Text} (h : useOf before rest token = some text) :
    renameToken get (scanAfter before) rest token =
      match get text with
      | some (.ambiguous modules) => .error (ambiguousError token.line text modules)
      | _ => .ok { token with kind := .identifier (newName get text) } := by
  obtain ⟨kind, line⟩ := token
  unfold useOf at h
  split at h
  next text' hkind =>
    split_ifs at h with huse
    cases h
    cases hkind
    simp only [renameToken, newName, (isUse_scanAfter before rest).mpr huse, if_true]
    cases get text with
    | none => rfl
    | some rename => cases rename <;> rfl
  next => cases h

theorem renameTokensFrom_cases (get : Text → Option Rename) (before : List TokenKind) (tokens : List Token) :
    (∃ e, renameTokensFrom get (scanAfter before) tokens = .error e) ∧
        (∃ n ∈ usesFrom before tokens, ∃ ds, get n = some (.ambiguous ds)) ∨
      renameTokensFrom get (scanAfter before) tokens = .ok (mapUsesFrom (newName get) before tokens) ∧
        ∀ n ∈ usesFrom before tokens, ∀ ds, get n ≠ some (.ambiguous ds) := by
  induction tokens generalizing before with
  | nil => exact Or.inr ⟨rfl, by simp [usesFrom]⟩
  | cons token rest ih =>
    -- Where this token is renamed, the rest decides.
    have hrest : renameToken get (scanAfter before) rest token = .ok (mapUse (newName get) before rest token) →
        (∀ n ∈ (useOf before rest token).toList, ∀ ds, get n ≠ some (.ambiguous ds)) →
        (∃ e, renameTokensFrom get (scanAfter before) (token :: rest) = .error e) ∧
            (∃ n ∈ usesFrom before (token :: rest), ∃ ds, get n = some (.ambiguous ds)) ∨
          renameTokensFrom get (scanAfter before) (token :: rest) = .ok (mapUsesFrom (newName get) before (token :: rest)) ∧
            ∀ n ∈ usesFrom before (token :: rest), ∀ ds, get n ≠ some (.ambiguous ds) := by
      intro htoken hplain
      rw [renameTokensFrom, htoken, usesFrom, mapUsesFrom, ← scanAfter]
      rcases ih (token.kind :: before) with ⟨⟨e, he⟩, n, hn, hds⟩ | ⟨hok, hnone⟩
      · exact Or.inl ⟨⟨e, by rw [he]⟩, n, mem_append_right _ hn, hds⟩
      refine Or.inr ⟨by rw [hok], fun n hn => ?_⟩
      rcases List.mem_append.mp hn with hn | hn
      · exact hplain n hn
      · exact hnone n hn
    cases huse : useOf before rest token with
    | none =>
      refine hrest ?_ (by simp [huse])
      rw [renameToken_of_none huse, mapUse, huse]
    | some text =>
      by_cases hambiguous : ∃ ds, get text = some (.ambiguous ds)
      · obtain ⟨ds, hds⟩ := hambiguous
        refine Or.inl ⟨⟨ambiguousError token.line text ds, ?_⟩, text, ?_, ds, hds⟩
        · rw [renameTokensFrom, renameToken_of_some huse, hds]
        · rw [usesFrom, huse]
          exact mem_append_left _ (by simp)
      · refine hrest ?_ ?_
        · rw [renameToken_of_some huse, mapUse, huse]
          split
          next ds hds => exact absurd ⟨ds, hds⟩ hambiguous
          next => rfl
        · intro n hn ds hds
          rw [huse, toList_some, List.mem_singleton] at hn
          rw [hn] at hds
          exact hambiguous ⟨ds, hds⟩

def PlainStem (t : Text) : Prop := ¬ ['_', '_'] <:+: t ∧ t.getLast? ≠ some '_'

theorem eq_nil_of_append {s c n n' : Text} (hplain : PlainStem (s ++ c)) (h : '_' :: '_' :: n = c ++ '_' :: '_' :: n') :
    c = [] := by
  match c with
  | [] => rfl
  | [a] =>
    cases (List.cons.inj h).1
    exact absurd (by simp) hplain.2
  | a :: b :: c =>
    cases (List.cons.inj h).1
    cases (List.cons.inj (List.cons.inj h).2).1
    exact absurd ⟨s, c, by simp⟩ hplain.1

variable {isAlphanumeric : Char → Bool}

theorem renamed_inj {m m' n n' : Text} (hm : PlainStem (stem isAlphanumeric m)) (hm' : PlainStem (stem isAlphanumeric m'))
    (h : renamed isAlphanumeric m n = renamed isAlphanumeric m' n') :
    stem isAlphanumeric m = stem isAlphanumeric m' ∧ n = n' := by
  have hstem : stem isAlphanumeric m = stem isAlphanumeric m' := by
    rcases List.append_eq_append_iff.mp h with ⟨c, hc, hrest⟩ | ⟨c, hc, hrest⟩
    · rw [hc] at hm'
      rw [hc, eq_nil_of_append hm' hrest, append_nil]
    · rw [hc] at hm
      rw [hc, eq_nil_of_append hm hrest, append_nil]
  rw [renamed, renamed, hstem] at h
  simpa [hstem] using h

variable {programs : List Program} {roots : List Text} {name : Text}

theorem mem_declarers {d : Text} :
    d ∈ declarers programs name ↔ ∃ p ∈ programs, name ∈ declaredNames p ∧ p.modulePath = d := by
  simp [declarers, and_assoc]

theorem mem_clashes :
    name ∈ clashes programs ↔ (∃ p ∈ programs, name ∈ declaredNames p) ∧ isClash programs name = true := by
  simp [clashes]

def IsRename (isAlphanumeric : Char → Bool) (programs : List Program) (roots : List Text) (m name : Text)
    (rename : Rename) : Prop :=
  name ∈ clashes programs ∧ ∃ keep, keeper programs roots name = some keep ∧ (∃ p ∈ programs, p.modulePath = m) ∧
    ∃ seen, Right programs name m seen ∧ renameOf isAlphanumeric keep name seen.list = some rename

variable {m : Text}

theorem right_unique {s t : OrderedSet Text} (hs : Right programs name m s)
    (ht : Right programs name m t) : s = t := OrderedSet.ext fun d => (hs d).trans (ht d).symm

variable {r : Rename}

theorem IsRename.unique {r' : Rename} (h : IsRename isAlphanumeric programs roots m name r)
    (h' : IsRename isAlphanumeric programs roots m name r') : r = r' := by
  obtain ⟨-, keep, hkeep, -, seen, hseen, hr⟩ := h
  obtain ⟨-, keep', hkeep', -, seen', hseen', hr'⟩ := h'
  cases hkeep.symm.trans hkeep'
  cases right_unique hseen hseen'
  exact Option.some.inj (hr.symm.trans hr')

variable (hdistinct : (programs.map Program.modulePath).Nodup) {n : Text}
include hdistinct in
theorem mem_renames (hacyclic : Acyclic programs name) {keep : Option Text} {ps : List Program}
    {memo : Memo} (hmemo : MemoRight programs name memo) :
    ((m, n), r) ∈ renames isAlphanumeric programs keep name ps memo ↔ n = name ∧ (∃ p ∈ ps, p.modulePath = m) ∧
        ∃ seen, Right programs name m seen ∧ renameOf isAlphanumeric keep name seen.list = some r := by
  induction ps generalizing memo with
  | nil => simp [renames]
  | cons p ps ih =>
    obtain ⟨hseen, hmemo'⟩ := sees_right hdistinct hacyclic hmemo (m := p.modulePath)
      (fun v hv => absurd hv not_mem_nil) nodup_nil (fun v hv => absurd hv not_mem_nil)
      (Nat.lt_succ_self programs.length)
    rw [renames]
    have hhere : (m = p.modulePath ∧ renameOf isAlphanumeric keep name
          (sees programs name (programs.length + 1) [] memo p.modulePath).1.list = some r) ↔
        p.modulePath = m ∧ ∃ seen, Right programs name m seen ∧
          renameOf isAlphanumeric keep name seen.list = some r := by
      constructor
      · rintro ⟨rfl, hr⟩
        exact ⟨rfl, _, hseen, hr⟩
      · rintro ⟨rfl, seen, hright, hr⟩
        rw [right_unique hseen hright]
        exact ⟨rfl, hr⟩
    have hsplit : (∃ q ∈ p :: ps, q.modulePath = m) ↔ p.modulePath = m ∨ ∃ q ∈ ps, q.modulePath = m := by simp
    rw [hsplit, or_and_right, and_or_left, ← hhere, ← ih hmemo']
    cases hr : renameOf isAlphanumeric keep name
        (sees programs name (programs.length + 1) [] memo p.modulePath).1.list with
    | none => simp
    | some r' =>
      simp only [mem_cons, Prod.mk.injEq, Option.some.injEq]
      constructor
      · rintro (⟨⟨rfl, rfl⟩, rfl⟩ | h)
        · exact Or.inl ⟨rfl, rfl, rfl⟩
        · exact Or.inr h
      · rintro (⟨rfl, rfl, rfl⟩ | h)
        · exact Or.inl ⟨⟨rfl, rfl⟩, rfl⟩
        · exact Or.inr h

theorem planName_ok {entries : Plan} (h : planName isAlphanumeric programs roots name = .ok entries) :
    keeper programs roots name = none ∧ entries = [] ∨ ∃ keep, keeper programs roots name = some keep ∧
        entries = renames isAlphanumeric programs keep name programs [] := by
  unfold planName at h
  split at h
  next hkeep =>
    cases h
    exact Or.inl ⟨hkeep, rfl⟩
  next keep hkeep =>
    refine Or.inr ⟨keep, hkeep, ?_⟩
    split at h
    · cases h
      rfl
    · split_ifs at h
      cases h
      rfl

theorem mem_planNames {names : List Text} {entries : Plan}
    (h : planNames isAlphanumeric programs roots names = .ok entries) {entry : (Text × Text) × Rename} :
    entry ∈ entries ↔ ∃ name ∈ names, ∃ es, planName isAlphanumeric programs roots name = .ok es ∧ entry ∈ es := by
  induction names generalizing entries with
  | nil =>
    cases h
    simp
  | cons name names ih =>
    rw [planNames] at h
    split at h
    next => cases h
    next es hes =>
      split at h
      next => cases h
      next rest hrest =>
        cases h
        rw [mem_append, ih hrest]
        simp [hes]

include hdistinct in
theorem mem_plan (hacyclic : ∀ name ∈ clashes programs, Acyclic programs name) {P : Plan}
    (hplan : plan isAlphanumeric programs roots = .ok P) :
    ((m, n), r) ∈ P ↔ IsRename isAlphanumeric programs roots m n r := by
  have hempty : ∀ name, MemoRight programs name [] := fun name entry hentry => absurd hentry not_mem_nil
  rw [mem_planNames hplan]
  constructor
  · rintro ⟨name, hname, es, hes, hmem⟩
    rcases planName_ok hes with ⟨-, rfl⟩ | ⟨keep, hkeep, rfl⟩
    · cases hmem
    · obtain ⟨rfl, hm, hseen⟩ := (mem_renames hdistinct (hacyclic name hname) (hempty name)).mp hmem
      exact ⟨hname, keep, hkeep, hm, hseen⟩
  · rintro ⟨hname, keep, hkeep, hm, hseen⟩
    have hok : ∃ es, planName isAlphanumeric programs roots n = .ok es := by
      by_contra hnone
      have herror : ∀ names, n ∈ names → ∀ P', planNames isAlphanumeric programs roots names ≠ .ok P' := by
        intro names hmem P' hP'
        induction names generalizing P' with
        | nil => cases hmem
        | cons name names ih =>
          rw [planNames] at hP'
          split at hP'
          next => cases hP'
          next es hes =>
            rcases List.mem_cons.mp hmem with rfl | hmem
            · exact hnone ⟨es, hes⟩
            · split at hP'
              next => cases hP'
              next rest hrest => exact ih hmem rest hrest
      exact herror _ hname P hplan
    obtain ⟨es, hes⟩ := hok
    rcases planName_ok hes with ⟨hnone, -⟩ | ⟨keep', hkeep', rfl⟩
    · rw [hnone] at hkeep
      cases hkeep
    · cases hkeep.symm.trans hkeep'
      exact ⟨n, hname, _, hes, (mem_renames hdistinct (hacyclic n hname) (hempty n)).mpr ⟨rfl, hm, hseen⟩⟩

theorem lookup_eq_some_iff {α β : Type} [BEq α] [LawfulBEq α] {l : List (α × β)}
    (hunique : ∀ a b b', (a, b) ∈ l → (a, b') ∈ l → b = b') {a : α} {b : β} : l.lookup a = some b ↔ (a, b) ∈ l := by
  induction l with
  | nil => simp
  | cons entry l ih =>
    obtain ⟨a', b'⟩ := entry
    have htail := ih fun a b b' hb hb' =>
      hunique a b b' (mem_cons_of_mem _ hb) (mem_cons_of_mem _ hb')
    rw [lookup_cons]
    split
    next heq =>
      rw [beq_iff_eq.mp heq]
      constructor
      · rintro h
        cases h
        exact mem_cons_self
      · intro h
        rw [hunique a' b' b mem_cons_self h]
    next hne =>
      have hne : a ≠ a' := fun heq => by simp [heq] at hne
      rw [htail, mem_cons]
      simp [hne]

include hdistinct in
theorem plan_get (hacyclic : ∀ name ∈ clashes programs, Acyclic programs name) {P : Plan}
    (hplan : plan isAlphanumeric programs roots = .ok P) :
    P.get m n = some r ↔ IsRename isAlphanumeric programs roots m n r := by
  rw [Plan.get, lookup_eq_some_iff, mem_plan hdistinct hacyclic hplan]
  rintro ⟨m, n⟩ r r' hr hr'
  rw [mem_plan hdistinct hacyclic hplan] at hr hr'
  exact hr.unique hr'

end

section
variable {isAlphanumeric : Char → Bool} {programs : List Program} {roots : List Text}

def identifiers (p : Program) : List Text := declaredNames p ++ p.externs ++ uses p.tokens

/-- Modules with names of their own. One root at most declares a name, the new spellings are those of one module and
are not in use, and no cycle of imports leads through modules without a declaration of a clashing name. -/
structure Tame (isAlphanumeric : Char → Bool) (programs : List Program) (roots : List Text) : Prop where
  distinct : (programs.map Program.modulePath).Nodup
  oneRoot : ∀ p ∈ programs, ∀ q ∈ programs, p.modulePath ∈ roots → q.modulePath ∈ roots →
    ∀ name ∈ declaredNames p, name ∈ declaredNames q → p = q
  stems : ∀ p ∈ programs, ∀ q ∈ programs,
    stem isAlphanumeric p.modulePath = stem isAlphanumeric q.modulePath → p = q
  plainStem : ∀ p ∈ programs, PlainStem (stem isAlphanumeric p.modulePath)
  fresh : ∀ p ∈ programs, ∀ q ∈ programs, ∀ s ∈ identifiers q,
    ¬ stem isAlphanumeric p.modulePath ++ ['_', '_'] <+: s
  acyclic : ∀ name ∈ clashes programs, Acyclic programs name

theorem declarers_nodup (hdistinct : (programs.map Program.modulePath).Nodup) (name : Text) :
    (declarers programs name).Nodup := by
  rw [declarers, (perm_insertionSort _ _).nodup_iff]
  exact hdistinct.sublist (List.filter_sublist.map _)

theorem length_le_one {α : Type} {l : List α} (hnodup : l.Nodup) (h : ∀ a ∈ l, ∀ b ∈ l, a = b) : l.length ≤ 1 := by
  match l with
  | [] => simp
  | [_] => simp
  | a :: b :: l =>
    have hab := h a mem_cons_self b (mem_cons_of_mem _ mem_cons_self)
    simp [hab] at hnodup

theorem one_lt_length {α : Type} {l : List α} {a b : α} (ha : a ∈ l) (hb : b ∈ l) (hab : a ≠ b) : 1 < l.length := by
  match l with
  | [] => cases ha
  | [c] =>
    rw [List.mem_singleton] at ha hb
    exact absurd (ha.trans hb.symm) hab
  | _ :: _ :: _ => simp

variable {name : Text} {p q : Program}

theorem mem_clashes_of_two (hp : p ∈ programs) (hq : q ∈ programs)
    (hpn : name ∈ declaredNames p) (hqn : name ∈ declaredNames q) (hne : p.modulePath ≠ q.modulePath) :
    name ∈ clashes programs := by
  refine mem_clashes.mpr ⟨⟨p, hp, hpn⟩, ?_⟩
  have hlength := one_lt_length (mem_declarers.mpr ⟨p, hp, hpn, rfl⟩) (mem_declarers.mpr ⟨q, hq, hqn, rfl⟩) hne
  simp [isClash, hlength]

variable {n : Text}

theorem declared_mem_identifiers (h : name ∈ declaredNames p) : name ∈ identifiers p :=
  mem_append_left _ (mem_append_left _ h)

variable (htame : Tame isAlphanumeric programs roots) {P : Plan}
  (hplan : plan isAlphanumeric programs roots = .ok P)
include htame

theorem keeper_eq (name : Text) :
    ∃ keep, keeper programs roots name = some keep ∧ (isCFunction programs name = true → keep = none) := by
  unfold keeper
  by_cases hc : isCFunction programs name = true
  · rw [if_pos hc]
    exact ⟨none, rfl, fun _ => rfl⟩
  have hle : ((declarers programs name).filter (· ∈ roots)).length ≤ 1 := by
    apply length_le_one ((declarers_nodup htame.distinct name).filter _)
    intro a ha b hb
    rw [mem_filter, mem_declarers] at ha hb
    obtain ⟨⟨p, hp, hpn, rfl⟩, hproot⟩ := ha
    obtain ⟨⟨q, hq, hqn, rfl⟩, hqroot⟩ := hb
    rw [htame.oneRoot p hp q hq (by simpa using hproot) (by simpa using hqroot) name hpn hqn]
  rw [if_neg hc]
  rw [if_neg (by omega)]
  exact ⟨_, rfl, fun h => absurd h hc⟩

theorem right_own (hp : p ∈ programs)
    (hname : name ∈ declaredNames p) : Right programs name p.modulePath (OrderedSet.singleton p.modulePath) :=
  fun d => by rw [OrderedSet.mem_singleton, sees_own htame.distinct hp hname]

theorem renamed_not_mem (hp : p ∈ programs)
    (hq : q ∈ programs) (name : Text) : renamed isAlphanumeric p.modulePath name ∉ identifiers q :=
  fun hmem => htame.fresh p hp q hq _ hmem ⟨name, by simp [renamed]⟩

theorem exists_right (hn : n ∈ clashes programs) (m : Text) : ∃ seen, Right programs n m seen :=
  ⟨_, (sees_right htame.distinct (htame.acyclic n hn) (fun _ hentry => absurd hentry not_mem_nil)
    (fun _ hv => absurd hv not_mem_nil) nodup_nil (fun _ hv => absurd hv not_mem_nil)
    (Nat.lt_succ_self programs.length)).1⟩

include hplan

theorem get_iff {m : Text} {r : Rename} : P.get m n = some r ↔ IsRename isAlphanumeric programs roots m n r :=
  plan_get htame.distinct htame.acyclic hplan

theorem get_eq_none {m : Text} (hname : name ∉ clashes programs) : P.get m name = none := by
  rw [eq_none_iff_forall_ne_some]
  intro r hr
  exact hname ((get_iff htame hplan).mp hr).1

variable (hp : p ∈ programs)
include hp

theorem get_declared (hname : name ∈ declaredNames p) (hclash : name ∈ clashes programs)
    {keep : Option Text} (hkeep : keeper programs roots name = some keep) : P.get p.modulePath name =
      if some p.modulePath = keep then none else some (.to (renamed isAlphanumeric p.modulePath name)) := by
  have hright := right_own htame hp hname
  ext r
  rw [get_iff htame hplan]
  constructor
  · rintro ⟨-, keep', hkeep', -, seen, hseen, hr⟩
    cases hkeep.symm.trans hkeep'
    rw [← right_unique hright hseen] at hr
    exact hr
  · intro hr
    exact ⟨hclash, keep, hkeep, ⟨p, hp, rfl⟩, _, hright, hr⟩

theorem newName_declared (hname : name ∈ declaredNames p) : newName (P.get p.modulePath) name = name ∧
        (name ∈ clashes programs → keeper programs roots name = some (some p.modulePath)) ∨
      newName (P.get p.modulePath) name = renamed isAlphanumeric p.modulePath name := by
  by_cases hclash : name ∈ clashes programs
  · obtain ⟨keep, hkeep, -⟩ := keeper_eq htame name
    have hget := get_declared htame hplan hp hname hclash hkeep
    split_ifs at hget with hkept
    · refine Or.inl ⟨by rw [newName, hget], fun _ => ?_⟩
      rw [hkeep, hkept]
    · exact Or.inr (by rw [newName, hget])
  · exact Or.inl ⟨by rw [newName, get_eq_none htame hplan hclash], fun h => absurd h hclash⟩

theorem newName_inj (hq : q ∈ programs) {n' : Text} (hn : n ∈ declaredNames p)
    (hn' : n' ∈ declaredNames q) (h : newName (P.get p.modulePath) n = newName (P.get q.modulePath) n') :
    p = q ∧ n = n' := by
  rcases newName_declared htame hplan hp hn with ⟨hplain, hkept⟩ | hnew <;>
    rcases newName_declared htame hplan hq hn' with ⟨hplain', hkept'⟩ | hnew'
  · have hnn : n = n' := hplain.symm.trans (h.trans hplain')
    subst hnn
    refine ⟨?_, rfl⟩
    by_contra hne
    have hpath : p.modulePath ≠ q.modulePath := fun heq => hne (eq_of_modulePath htame.distinct hp hq heq)
    have hclash := mem_clashes_of_two hp hq hn hn' hpath
    have hsame := (hkept hclash).symm.trans (hkept' hclash)
    exact hpath (Option.some.inj (Option.some.inj hsame))
  · rw [hplain, hnew'] at h
    exact absurd (h ▸ declared_mem_identifiers hn) (renamed_not_mem htame hq hp n')
  · rw [hplain', hnew] at h
    exact absurd (h ▸ declared_mem_identifiers hn') (renamed_not_mem htame hp hq n)
  · rw [hnew, hnew'] at h
    obtain ⟨hstem, hnn⟩ := renamed_inj (htame.plainStem p hp) (htame.plainStem q hq) h
    exact ⟨htame.stems p hp q hq hstem, hnn⟩

theorem newName_ne_extern (hq : q ∈ programs)
    {n' : Text} (hn : n ∈ p.functions) (hn' : n' ∈ q.externs) : newName (P.get p.modulePath) n ≠ n' := by
  intro h
  have hdeclared : n ∈ declaredNames p := mem_append_right _ hn
  rcases newName_declared htame hplan hp hdeclared with ⟨hplain, hkept⟩ | hnew
  · rw [hplain] at h
    subst h
    have hc : isCFunction programs n = true := by
      simp only [isCFunction, Bool.and_eq_true, List.any_eq_true, decide_eq_true_eq, Bool.or_eq_true]
      exact ⟨⟨p, hp, hn⟩, Or.inl ⟨q, hq, hn'⟩⟩
    have hclash : n ∈ clashes programs := mem_clashes.mpr ⟨⟨p, hp, hdeclared⟩, by simp [isClash, hc]⟩
    obtain ⟨keep, hkeep, hnone⟩ := keeper_eq htame n
    rw [hkept hclash, hnone hc] at hkeep
    cases hkeep
  · rw [hnew] at h
    exact renamed_not_mem htame hp hq n (h ▸ mem_append_left _ (mem_append_right _ hn'))

omit hp in
theorem newName_single {m d : Text} (h : ∀ d', Sees programs n m d' ↔ d' = d) :
    newName (P.get m) n = newName (P.get d) n := by
  have hsees := (h d).mpr rfl
  obtain ⟨q, hq, rfl, hqn⟩ := hsees.declares
  have hm : Right programs n m (OrderedSet.singleton q.modulePath) := fun d' => by rw [OrderedSet.mem_singleton, h]
  have hd := right_own htame hq hqn
  have hget : P.get m n = P.get q.modulePath n := by
    ext r
    rw [get_iff htame hplan, get_iff htame hplan]
    constructor
    · rintro ⟨hclash, keep, hkeep, -, seen, hseen, hr⟩
      rw [← right_unique hm hseen] at hr
      exact ⟨hclash, keep, hkeep, ⟨q, hq, rfl⟩, _, hd, hr⟩
    · rintro ⟨hclash, keep, hkeep, -, seen, hseen, hr⟩
      rw [← right_unique hd hseen] at hr
      exact ⟨hclash, keep, hkeep, hsees.module, _, hm, hr⟩
  rw [newName, newName, hget]

theorem get_ambiguous : (∃ ds, P.get p.modulePath n = some (.ambiguous ds)) ↔ n ∉ declaredNames p ∧
        ∃ d d', d ≠ d' ∧ Sees programs n p.modulePath d ∧ Sees programs n p.modulePath d' := by
  constructor
  · rintro ⟨ds, hds⟩
    obtain ⟨hclash, keep, hkeep, -, seen, hseen, hr⟩ := (get_iff htame hplan).mp hds
    rcases seen with ⟨_ | ⟨d, _ | ⟨d', rest⟩⟩, ordered⟩
    · cases hr
    · simp only [renameOf] at hr
      split_ifs at hr
      cases hr
    · have hdd : d ≠ d' := (List.pairwise_cons.mp ordered).1 d' mem_cons_self |>.ne
      have hsees := (hseen d).mp mem_cons_self
      have hsees' := (hseen d').mp (mem_cons_of_mem _ mem_cons_self)
      refine ⟨fun hdeclared => ?_, d, d', hdd, hsees, hsees'⟩
      rw [sees_own htame.distinct hp hdeclared] at hsees hsees'
      exact hdd (hsees.trans hsees'.symm)
  · rintro ⟨-, d, d', hdd, hsees, hsees'⟩
    obtain ⟨q, hq, hqd, hqn⟩ := hsees.declares
    obtain ⟨q', hq', hqd', hqn'⟩ := hsees'.declares
    have hclash := mem_clashes_of_two hq hq' hqn hqn' (by rwa [hqd, hqd'])
    obtain ⟨keep, hkeep, -⟩ := keeper_eq htame n
    obtain ⟨seen, hseen⟩ := exists_right htame hclash p.modulePath
    have hlength := one_lt_length ((hseen d).mpr hsees) ((hseen d').mpr hsees') hdd
    refine ⟨seen.list, (get_iff htame hplan).mpr ⟨hclash, keep, hkeep, ⟨p, hp, rfl⟩, seen, hseen, ?_⟩⟩
    match hlist : seen.list with
    | [] => simp [hlist] at hlength
    | [_] => simp [hlist] at hlength
    | _ :: _ :: _ => rfl

end

section
variable {isAlphanumeric : Char → Bool} {programs programs' : List Program} {roots : List Text}
  (hperm : programs'.Perm programs)

theorem insertionSort_eq_of_perm {l l' : List Text} (h : l'.Perm l) :
    l'.insertionSort (· ≤ ·) = l.insertionSort (· ≤ ·) := by
  apply List.Perm.eq_of_pairwise (fun a b _ _ hab hba => le_antisymm hab hba)
  · exact pairwise_insertionSort _ l'
  · exact pairwise_insertionSort _ l
  · exact ((perm_insertionSort _ l').trans h).trans (perm_insertionSort _ l).symm

include hperm

theorem declarers_perm (name : Text) : declarers programs' name = declarers programs name :=
  insertionSort_eq_of_perm ((hperm.filter _).map _)

theorem isCFunction_perm (name : Text) : isCFunction programs' name = isCFunction programs name := by
  rw [isCFunction, isCFunction, hperm.any_eq, hperm.any_eq]

theorem clashes_perm : clashes programs' = clashes programs := by
  have hclash : isClash programs' = isClash programs := by
    funext name
    rw [isClash, isClash, declarers_perm hperm, isCFunction_perm hperm]
  rw [clashes, clashes, hclash, insertionSort_eq_of_perm (hperm.flatMap_right declaredNames).dedup]

theorem keeper_perm (name : Text) : keeper programs' roots name = keeper programs roots name := by
  rw [keeper, keeper, declarers_perm hperm, isCFunction_perm hperm]

variable {e : String}

theorem planName_error_perm {name : Text} :
    planName isAlphanumeric programs' roots name = .error e ↔ planName isAlphanumeric programs roots name = .error e := by
  rw [planName, planName, keeper_perm hperm, declarers_perm hperm]
  cases keeper programs roots name with
  | none => rfl
  | some keep =>
    dsimp only
    cases (declarers programs name).find? fun m => some m ≠ keep with
    | none => simp
    | some lost =>
      split_ifs
      · rfl
      · simp

theorem planNames_error_perm {names : List Text} : planNames isAlphanumeric programs' roots names = .error e ↔
      planNames isAlphanumeric programs roots names = .error e := by
  induction names with
  | nil => rfl
  | cons name names ih =>
    rw [planNames, planNames]
    cases hthere : planName isAlphanumeric programs' roots name with
    | error e' =>
      rw [(planName_error_perm hperm).mp hthere]
    | ok es =>
      cases hhere : planName isAlphanumeric programs roots name with
      | error e' =>
        rw [(planName_error_perm hperm).mpr hhere] at hthere
        cases hthere
      | ok es' =>
        cases hrest' : planNames isAlphanumeric programs' roots names with
        | error e' =>
          cases hrest : planNames isAlphanumeric programs roots names with
          | error e'' => simpa [hrest, hrest'] using ih
          | ok _ => simp [hrest, hrest'] at ih ⊢; exact ih
        | ok _ =>
          cases hrest : planNames isAlphanumeric programs roots names with
          | error e'' => simpa [hrest, hrest'] using ih
          | ok _ => simp

theorem plan_error_perm :
    plan isAlphanumeric programs' roots = .error e ↔ plan isAlphanumeric programs roots = .error e := by
  rw [plan, plan, clashes_perm hperm]
  exact planNames_error_perm hperm

theorem sees_perm {name m d : Text} : Sees programs' name m d ↔ Sees programs name m d :=
  ⟨Sees.of_subset fun _ hp => hperm.mem_iff.mp hp, Sees.of_subset fun _ hp => hperm.mem_iff.mpr hp⟩

theorem isRename_perm {m n : Text} {r : Rename} :
    IsRename isAlphanumeric programs' roots m n r ↔ IsRename isAlphanumeric programs roots m n r := by
  simp only [IsRename, Right, clashes_perm hperm, keeper_perm hperm, hperm.mem_iff, sees_perm hperm]

theorem Tame.perm (htame : Tame isAlphanumeric programs roots) : Tame isAlphanumeric programs' roots where
  distinct := ((hperm.map _).nodup_iff).mpr htame.distinct
  oneRoot p hp q hq := htame.oneRoot p (hperm.mem_iff.mp hp) q (hperm.mem_iff.mp hq)
  stems p hp q hq := htame.stems p (hperm.mem_iff.mp hp) q (hperm.mem_iff.mp hq)
  plainStem p hp := htame.plainStem p (hperm.mem_iff.mp hp)
  fresh p hp q hq := htame.fresh p (hperm.mem_iff.mp hp) q (hperm.mem_iff.mp hq)
  acyclic name hname := by
    have hlooks : Looks programs' name = Looks programs name := by
      funext m m'
      simp only [Looks, hperm.mem_iff]
    rw [Acyclic, hlooks]
    exact htame.acyclic name (clashes_perm hperm ▸ hname)

end

variable {isAlphanumeric : Char → Bool} {programs : List Program} {roots : List Text}

structure Resolved (programs : List Program) (P : Plan) : Prop where
  distinct : ∀ p ∈ programs, ∀ q ∈ programs, ∀ n ∈ declaredNames p, ∀ n' ∈ declaredNames q,
    newName (P.get p.modulePath) n = newName (P.get q.modulePath) n' → p = q ∧ n = n'
  notExtern : ∀ p ∈ programs, ∀ q ∈ programs, ∀ n ∈ p.functions, ∀ n' ∈ q.externs,
    newName (P.get p.modulePath) n ≠ n'
  fresh : ∀ m n new, P.get m n = some (.to new) → ∀ q ∈ programs, new ∉ identifiers q
  refers : ∀ p ∈ programs, ∀ n d, (∀ d', Sees programs n p.modulePath d' ↔ d' = d) →
    newName (P.get p.modulePath) n = newName (P.get d) n
  tokens : ∀ p ∈ programs, ∀ tokens, renameTokens p.tokens (P.get p.modulePath) = .ok tokens →
    tokens = mapUses (newName (P.get p.modulePath)) p.tokens
  ambiguous : ∀ p ∈ programs, (∃ e, renameTokens p.tokens (P.get p.modulePath) = .error e) ↔
    ∃ n ∈ uses p.tokens, n ∉ declaredNames p ∧
      ∃ d d', d ≠ d' ∧ Sees programs n p.modulePath d ∧ Sees programs n p.modulePath d'

theorem resolved_of_plan (htame : Tame isAlphanumeric programs roots) {P : Plan}
    (hplan : plan isAlphanumeric programs roots = .ok P) : Resolved programs P where
  distinct _ hp _ hq _ hn _ hn' := newName_inj htame hplan hp hq hn hn'
  notExtern _ hp _ hq _ hn _ hn' := newName_ne_extern htame hplan hp hq hn hn'
  fresh m n new hnew q hq := by
    obtain ⟨-, keep, -, -, seen, hseen, hr⟩ := (get_iff htame hplan).mp hnew
    rcases seen with ⟨_ | ⟨d, _ | ⟨d', rest⟩⟩, ordered⟩
    · cases hr
    · simp only [renameOf] at hr
      split_ifs at hr
      cases hr
      obtain ⟨p, hp, rfl, -⟩ := ((hseen d).mp mem_cons_self).declares
      exact renamed_not_mem htame hp hq n
    · cases hr
  refers _ _ _ _ h := newName_single htame hplan h
  tokens p hp tokens h := by
    rcases renameTokensFrom_cases (P.get p.modulePath) [] p.tokens with ⟨⟨e, he⟩, -⟩ | ⟨hok, -⟩
    · rw [renameTokens, ← scanAfter, he] at h
      cases h
    · rw [renameTokens, ← scanAfter, hok] at h
      exact (Except.ok.inj h).symm
  ambiguous p hp := by
    have huses : (∃ n ∈ uses p.tokens, n ∉ declaredNames p ∧
        ∃ d d', d ≠ d' ∧ Sees programs n p.modulePath d ∧ Sees programs n p.modulePath d') ↔
        ∃ n ∈ uses p.tokens, ∃ ds, P.get p.modulePath n = some (.ambiguous ds) :=
      exists_congr fun n => and_congr_right fun _ => (get_ambiguous htame hplan hp).symm
    rw [huses]
    rcases renameTokensFrom_cases (P.get p.modulePath) [] p.tokens with ⟨herror, huse⟩ | ⟨hok, hnone⟩
    · exact ⟨fun _ => huse, fun _ => herror⟩
    constructor
    · rintro ⟨e, he⟩
      rw [renameTokens, ← scanAfter, hok] at he
      cases he
    · rintro ⟨n, hn, ds, hds⟩
      exact absurd hds (hnone n hn ds)

/-- A plan resolves the clashes of tame modules, whatever their order is. -/
theorem plan_resolves (htame : Tame isAlphanumeric programs roots) :
    (∀ P, plan isAlphanumeric programs roots = .ok P → Resolved programs P) ∧
      ∀ programs', programs'.Perm programs →
        (∀ e, plan isAlphanumeric programs' roots = .error e ↔ plan isAlphanumeric programs roots = .error e) ∧
        ∀ P P', plan isAlphanumeric programs roots = .ok P → plan isAlphanumeric programs' roots = .ok P' →
          ∀ m n, P'.get m n = P.get m n := by
  refine ⟨fun P hplan => resolved_of_plan htame hplan, fun programs' hperm => ⟨fun e => plan_error_perm hperm, ?_⟩⟩
  intro P P' hplan hplan' m n
  have htame' := htame.perm hperm
  ext r
  rw [get_iff htame hplan, get_iff htame' hplan']
  exact isRename_perm hperm

def functionModule (path : String) (functions : List String) (imports : List (List String)) : Program :=
  ⟨path.toList, [], [], [], functions.map String.toList, [], imports.map (List.map String.toList),
    functions.flatMap fun f => [⟨.fnKeyword, 1⟩, ⟨.identifier f.toList, 1⟩]⟩

def twoLibraries : List Program :=
  [{ functionModule "main" [] [["util"]] with tokens := [⟨.identifier ['f'], 1⟩] },
    functionModule "lib" ["f"] [], functionModule "util" ["f"] []]

theorem twoLibraries_tame : Tame Char.isAlphanum twoLibraries ["main".toList] where
  distinct := by decide
  oneRoot := by decide
  stems := by decide
  plainStem := by
    unfold PlainStem
    decide
  fresh := by decide
  acyclic := by
    intro name hname m hcycle
    have hf : name = ['f'] := by
      have hall : ∀ n ∈ clashes twoLibraries, n = ['f'] := by decide
      exact hall name hname
    subst hf
    have hlooks : ∀ m m', Looks twoLibraries ['f'] m m' → m = "main".toList ∧ m' = "util".toList := by
      rintro m m' ⟨p, hp, rfl, hblind, path, hpath, rfl, -⟩
      rcases List.mem_cons.mp hp with rfl | hp
      · rw [List.mem_singleton.mp hpath]
        exact ⟨rfl, rfl⟩
      rcases List.mem_cons.mp hp with rfl | hp
      · exact absurd (by decide) hblind.1
      · rw [List.mem_singleton.mp hp] at hblind
        exact absurd (by decide) hblind.1
    have hends : ∀ m m', Relation.TransGen (Looks twoLibraries ['f']) m m' →
        m = "main".toList ∧ m' = "util".toList := by
      intro m m' h
      induction h with
      | single h => exact hlooks _ _ h
      | tail _ h ih => exact ⟨ih.1, (hlooks _ _ h).2⟩
    obtain ⟨hmain, hutil⟩ := hends m m hcycle
    exact absurd (hmain.symm.trans hutil) (by decide)

theorem plan_resolves_twoLibraries :
    plan Char.isAlphanum twoLibraries ["main".toList] =
        .ok [(("main".toList, ['f']), .to "util__f".toList), (("util".toList, ['f']), .to "util__f".toList)] ∧
      Resolved twoLibraries
        [(("main".toList, ['f']), .to "util__f".toList), (("util".toList, ['f']), .to "util__f".toList)] := by
  have hplan : plan Char.isAlphanum twoLibraries ["main".toList] =
      .ok [(("main".toList, ['f']), .to "util__f".toList), (("util".toList, ['f']), .to "util__f".toList)] := by
    decide
  exact ⟨hplan, (plan_resolves twoLibraries_tame).1 _ hplan⟩

def cyclic : List Program :=
  [functionModule "a" [] [["b"], ["c"]], functionModule "b" [] [["a"]], functionModule "base" ["f"] [],
    functionModule "c" ["f"] []]

/-- Two roots with one name keep it. The new spellings of two modules are the same. The module `b`, which sees the
declaration of `c`, is renamed or not by the order of the modules. -/
theorem clashes_remain :
    plan Char.isAlphanum [functionModule "a" ["f"] [], functionModule "b" ["f"] []] ["a".toList, "b".toList] = .ok [] ∧
      plan Char.isAlphanum
        [functionModule "a::b_c" ["f"] [], functionModule "a_b::c" ["f"] [], functionModule "main" ["f"] []]
        ["main".toList] =
          .ok [(("a::b_c".toList, ['f']), .to "a_b_c__f".toList), (("a_b::c".toList, ['f']), .to "a_b_c__f".toList)] ∧
      Sees cyclic ['f'] "b".toList "c".toList ∧
      plan Char.isAlphanum cyclic [] =
        .ok [(("a".toList, ['f']), .to "c__f".toList), (("c".toList, ['f']), .to "c__f".toList)] ∧
      plan Char.isAlphanum (cyclic.drop 1 ++ cyclic.take 1) [] =
        .ok [(("b".toList, ['f']), .to "c__f".toList), (("c".toList, ['f']), .to "c__f".toList),
          (("a".toList, ['f']), .to "c__f".toList)] := by
  have hc : Sees cyclic ['f'] "c".toList "c".toList :=
    .own (p := functionModule "c" ["f"] []) (by decide) (by decide)
  have ha : Sees cyclic ['f'] "a".toList "c".toList :=
    .through (p := functionModule "a" [] [["b"], ["c"]]) (by decide) ⟨by decide, by decide⟩
      (mem_cons_of_mem _ mem_cons_self) hc
  have hb : Sees cyclic ['f'] "b".toList "c".toList :=
    .through (p := functionModule "b" [] [["a"]]) (by decide) ⟨by decide, by decide⟩ mem_cons_self ha
  exact ⟨by decide, by decide, hb, by decide, by decide⟩

end Vx.Names
