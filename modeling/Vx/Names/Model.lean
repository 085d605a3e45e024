import Vx.Lib.OrderedSet
import Vx.Lib.TaggedKey

/-!
The renaming of names that two modules declare: `name_clashes.rs`. A program is known by its declared names, its
`extern` blocks, its imports and its tokens.
-/

namespace Vx.Names

open Lib (OrderedSet)
open Lib.TaggedKey (Text)

inductive TokenKind
  | importKeyword
  | semicolon
  | enumKeyword
  | implKeyword
  | traitKeyword
  | fnKeyword
  | leftBrace
  | rightBrace
  | leftParen
  | rightParen
  | leftBracket
  | rightBracket
  | dot
  | doubleColon
  | colon
  | comma
  | identifier (text : Text)
  | trivia
  | other
deriving DecidableEq

structure Token where
  kind : TokenKind
  line : ℕ
deriving DecidableEq

structure Program where
  modulePath : Text
  structs : List Text
  enums : List Text
  traits : List Text
  functions : List Text
  externs : List Text
  imports : List (List Text)
  tokens : List Token
deriving DecidableEq

def moduleName (path : List Text) : Text := "::".toList.intercalate path

def declaredNames (p : Program) : List Text := p.structs ++ p.enums ++ p.traits ++ p.functions

def cFunctionsTheCompilerCalls : List Text :=
  ["malloc".toList, "realloc".toList, "aligned_alloc".toList, "free".toList]

def namesTheCompilerUses : List Text :=
  ["Option".toList, "Result".toList, "Vec".toList, "String".toList, "Copy".toList, "Closure0".toList,
    "Closure1".toList, "Closure2".toList, "Closure3".toList]

section

def replaceColons : Text → Text
  | ':' :: ':' :: t => '_' :: replaceColons t
  | c :: t => c :: replaceColons t
  | [] => []

def fileName (path : Text) : Option Text :=
  (((path.splitOn '/').filter fun part => part ≠ [] ∧ part ≠ ['.']).getLast?).filter (· ≠ ['.', '.'])

def fileStem (path : Text) : Option Text :=
  (fileName path).map fun name =>
    match name.reverse.dropWhile (· ≠ '.') with
    | [] => name
    | [_] => name
    | _ :: before => before.reverse

variable (isAlphanumeric : Char → Bool)

def stem (module : Text) : Text :=
  ((fileStem (replaceColons module)).getD (replaceColons module)).map fun c => if isAlphanumeric c then c else '_'

def renamed (module name : Text) : Text := stem isAlphanumeric module ++ '_' :: '_' :: name

abbrev Memo := List (Text × OrderedSet Text)

variable (programs : List Program) (name : Text)

def byName (module : Text) : Option Program := programs.reverse.find? (·.modulePath = module)

def seesImports (sees : Memo → Text → OrderedSet Text × Memo) :
    List (List Text) → OrderedSet Text → Memo → OrderedSet Text × Memo
  | [], out, memo => (out, memo)
  | path :: paths, out, memo =>
    if (byName programs (moduleName path)).isSome then
      let seen := sees memo (moduleName path)
      seesImports sees paths (out.extend seen.1) seen.2
    else seesImports sees paths out memo

def sees : ℕ → List Text → Memo → Text → OrderedSet Text × Memo
  | 0, _, memo, _ => (OrderedSet.empty, memo)
  | fuel + 1, visiting, memo, module =>
    match memo.lookup module with
    | some done => (done, memo)
    | none =>
      match byName programs module with
      | none => (OrderedSet.empty, memo)
      | some p =>
        -- A cycle back to a module that is still being worked out.
        if module ∈ visiting then (OrderedSet.empty, memo)
        else
          let out :=
            if name ∈ declaredNames p then (OrderedSet.singleton p.modulePath, memo)
            else if name ∈ p.externs then (OrderedSet.empty, memo)
            else seesImports programs (sees fuel (module :: visiting)) p.imports OrderedSet.empty memo
          (out.1, (module, out.1) :: out.2)

inductive Rename
  | to (new : Text)
  | ambiguous (modules : List Text)
deriving DecidableEq

abbrev Plan := List ((Text × Text) × Rename)

def Plan.get (plan : Plan) (module name : Text) : Option Rename := plan.lookup (module, name)

variable (isAlphanumeric : Char → Bool) (programs : List Program) (roots : List Text)

def declarers (name : Text) : List Text :=
  ((programs.filter fun p => name ∈ declaredNames p).map Program.modulePath).insertionSort (· ≤ ·)

def isCFunction (name : Text) : Bool :=
  (programs.any fun p => name ∈ p.functions) &&
    ((programs.any fun p => name ∈ p.externs) || name ∈ cFunctionsTheCompilerCalls)

def isClash (name : Text) : Bool := (declarers programs name).length > 1 || isCFunction programs name

def clashes : List Text :=
  ((programs.flatMap declaredNames).dedup.insertionSort (· ≤ ·)).filter (isClash programs)

/-- The declaration that keeps its name, if one does. Nothing where two roots declare the name, which the check of the
declarations reports. -/
def keeper (name : Text) : Option (Option Text) :=
  if isCFunction programs name then some none
  else
    let rootDeclarers := (declarers programs name).filter (· ∈ roots)
    if rootDeclarers.length > 1 then none
    else some (rootDeclarers.head?.or (declarers programs name).head?)

def renameOf (keep : Option Text) (name : Text) : List Text → Option Rename
  | [] => none
  | [d] => if some d = keep then none else some (.to (renamed isAlphanumeric d name))
  | ds => some (.ambiguous ds)

def renames (keep : Option Text) (name : Text) : List Program → Memo → Plan
  | [], _ => []
  | p :: ps, memo =>
    let seen := sees programs name (programs.length + 1) [] memo p.modulePath
    match renameOf isAlphanumeric keep name seen.1.list with
    | none => renames keep name ps seen.2
    | some rename => ((p.modulePath, name), rename) :: renames keep name ps seen.2

def planName (name : Text) : Except String Plan :=
  match keeper programs roots name with
  | none => .ok []
  | some keep =>
    match (declarers programs name).find? fun m => some m ≠ keep with
    | none => .ok (renames isAlphanumeric programs keep name programs [])
    | some lost =>
      if name ∈ namesTheCompilerUses then
        let keptBy := (keep.map fun k => "`" ++ String.ofList k ++ "`").getD "an `extern` block"
        .error ("`" ++ String.ofList name ++ "` is declared by both " ++ keptBy ++ " and `" ++ String.ofList lost ++
          "`; the compiler looks up the standard library's `" ++ String.ofList name ++
          "` by name, so no other module may declare one")
      else .ok (renames isAlphanumeric programs keep name programs [])

def planNames : List Text → Except String Plan
  | [] => .ok []
  | name :: names =>
    match planName isAlphanumeric programs roots name with
    | .error e => .error e
    | .ok entries =>
      match planNames names with
      | .error e => .error e
      | .ok rest => .ok (entries ++ rest)

def plan : Except String Plan := planNames isAlphanumeric programs roots (clashes programs)

end

inductive Scope
  | paren
  | block
  | enumBody
  | itemBody
deriving DecidableEq

structure Scan where
  scopes : List Scope
  nextBrace : Option Scope
  inImport : Bool
  prev : Option TokenKind

def Scan.start : Scan := ⟨[], none, false, none⟩

def Scan.step (scan : Scan) (kind : TokenKind) : Scan :=
  let scan' : Scan :=
    match kind with
    | .importKeyword => { scan with inImport := true }
    | .semicolon => { scan with inImport := false }
    | .enumKeyword => if scan.scopes = [] then { scan with nextBrace := some .enumBody } else scan
    | .implKeyword | .traitKeyword => if scan.scopes = [] then { scan with nextBrace := some .itemBody } else scan
    | .leftBrace => { scan with scopes := scan.nextBrace.getD .block :: scan.scopes, nextBrace := none }
    | .leftParen | .leftBracket => { scan with scopes := .paren :: scan.scopes }
    | .rightBrace | .rightParen | .rightBracket => { scan with scopes := scan.scopes.tail }
    | _ => scan
  if kind = .trivia then scan else { scan' with prev := some kind }

def nextKind (tokens : List Token) : Option TokenKind := (tokens.map Token.kind).find? (· ≠ .trivia)

def Scan.isUse (scan : Scan) (rest : List Token) : Bool :=
  let member := scan.prev = some .dot || scan.prev = some .doubleColon
  let variant := scan.scopes.head? = some .enumBody
  let method := scan.scopes.head? = some .itemBody && scan.prev = some .fnKeyword
  let field := scan.scopes.head? = some .block && nextKind rest = some .colon &&
    (scan.prev = some .leftBrace || scan.prev = some .comma)
  !scan.inImport && !(member || variant || method || field)

def ambiguousError (line : ℕ) (text : Text) (modules : List Text) : String :=
  "line " ++ toString line ++ ": `" ++ String.ofList text ++ "` is declared by both " ++
    " and ".intercalate (modules.map fun m => "`" ++ String.ofList m ++ "`") ++
    ", and this module sees both through its imports"

def renameToken (get : Text → Option Rename) (scan : Scan) (rest : List Token) (token : Token) : Except String Token :=
  match token.kind with
  | .identifier text =>
    match get text with
    | none => .ok token
    | some rename =>
      if scan.isUse rest then
        match rename with
        | .to new => .ok { token with kind := .identifier new }
        | .ambiguous modules => .error (ambiguousError token.line text modules)
      else .ok token
  | _ => .ok token

def renameTokensFrom (get : Text → Option Rename) : Scan → List Token → Except String (List Token)
  | _, [] => .ok []
  | scan, token :: rest =>
    match renameToken get scan rest token with
    | .error e => .error e
    | .ok token' =>
      match renameTokensFrom get (scan.step token.kind) rest with
      | .error e => .error e
      | .ok rest' => .ok (token' :: rest')

def renameTokens (tokens : List Token) (get : Text → Option Rename) : Except String (List Token) :=
  renameTokensFrom get .start tokens

end Vx.Names
