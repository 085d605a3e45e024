import Vx.Capacity.Summary
import Vx.Capacity.Tarjan

namespace Vx.Capacity

structure Fold where
  total : ℕ → String → Option UInt64
  peakEdge : ℕ → String → Option ℕ
  reported : ℕ → String → Option Bool
  errors : DiagnosticsVec

namespace Fold

variable (p : Program)

def start (errors : DiagnosticsVec) : Fold :=
  ⟨fun _ _ => none, fun _ _ => none, fun _ _ => none, errors⟩

def totalOf (f : Fold) (n : ℕ) (space : String) : UInt64 := (f.total n space).getD 0

def isReported (f : Fold) (n : ℕ) (space : String) : Bool := (f.reported n space).getD false

def setAt {α : Type} (table : ℕ → String → Option α) (n : ℕ) (space : String) (value : α) : ℕ → String → Option α :=
  fun m s => if m = n ∧ s = space then some value else table m s

def markReported (f : Fold) (n : ℕ) (space : String) : Fold :=
  { f with reported := setAt f.reported n space true }

def refuse (f : Fold) (space : String) (budget : SpaceBudget) (code : DiagnosticCode) (file : Option String)
    (message : String) (span : Option SourceSpan) (bytes : UInt64) : Fold :=
  { f with errors := f.errors.refuse budget code file message span ⟨space, bytes, budget.cap⟩ }

def scanCall (f : Fold) (space : String) (skip : ℕ → Bool) (best : UInt64 × Option ℕ) (item : CallEdge × ℕ) :
    UInt64 × Option ℕ :=
  match p.index.lookup item.1.callee with
  | none => best
  | some callee =>
    if skip callee then best
    else
      let reach := bytesIn item.1.live space + f.totalOf callee space
      if best.1 < reach then (reach, some item.2) else best

def scanCalls (f : Fold) (n : ℕ) (space : String) (skip : ℕ → Bool) : UInt64 × Option ℕ :=
  (p.node n).calls.zipIdx.foldl (scanCall p f space skip) (bytesIn (p.node n).selfPeak space, none)

def settle (f : Fold) (n : ℕ) (space : String) (skip : ℕ → Bool) : Fold :=
  let best := scanCalls p f n space skip
  { f with
    total := setAt f.total n space best.1
    peakEdge := match best.2 with
      | none => f.peakEdge
      | some ei => setAt f.peakEdge n space ei }

inductive PeakPath
  | alreadyReported
  | path (hops : List (ℕ × UInt64)) (path : List ℕ)

def peakPath (f : Fold) (space : String) : ℕ → ℕ → Option PeakPath
  | 0, _ => none
  | fuel + 1, cur =>
    match f.peakEdge cur space with
    | none => some (.path [] [])
    | some ei => do
      let call ← (p.node cur).calls[ei]?
      match p.index.lookup call.callee with
      | none => return .path [] []
      | some next =>
        if f.isReported next space then return .alreadyReported
        else
          match ← peakPath f space fuel next with
          | .alreadyReported => return .alreadyReported
          | .path hops path => return .path ((cur, bytesIn call.live space) :: hops) (next :: path)

def overflowMessage (space : String) (peak cap : UInt64) (hops : List (ℕ × UInt64)) (path : List ℕ)
    (terminal : ℕ) : String :=
  let names := path.map fun i => (p.node i).name
  let held := (hops.filter fun hop => 0 < hop.2).map fun hop =>
    "'" ++ (p.node hop.1).name ++ "' holds " ++ toString hop.2 ++ " bytes across its call"
  let peaks := "'" ++ (p.node terminal).name ++ "' itself peaks at " ++
    toString (bytesIn (p.node terminal).selfPeak space) ++ " bytes"
  "the working set along call path '" ++ String.intercalate " -> " names ++ "' in memory space '" ++ space ++
    "' peaks at " ++ toString peak ++ " bytes, over its " ++ toString cap ++ " byte capacity: " ++
    String.intercalate ", " (held ++ [peaks])

def callSpan (f : Fold) (n : ℕ) (space : String) : Option SourceSpan := do
  let ei ← f.peakEdge n space
  let call ← (p.node n).calls[ei]?
  return SourceSpan.fromAstSpan call.span

def reportOverflow (f : Fold) (n : ℕ) (space : String) (peak : UInt64) (budget : SpaceBudget) : Option Fold :=
  if peak ≤ budget.cap then some f
  else if budget.cap < bytesIn (p.node n).selfPeak space then some (f.markReported n space)
  else do
    match ← peakPath p f space (p.nodes.length + 1) n with
    | .alreadyReported => return f.markReported n space
    | .path hops path =>
      let message := overflowMessage p space peak budget.cap hops (n :: path) (path.getLast?.getD n)
      return (f.markReported n space).refuse space budget .E6027 (p.node n).file message (callSpan p f n space) peak

def foldSingle (n : ℕ) (f : Fold) (entry : Sigma fun _ : String => SpaceBudget) : Option Fold :=
  let f := settle p f n entry.1 fun _ => false
  reportOverflow p f n entry.1 (f.totalOf n entry.1) entry.2

def perActivation (scc : List ℕ) (space : String) : UInt64 :=
  (scc.map fun i => bytesIn (p.node i).selfPeak space).foldl max 0

def cycleMessage (scc : List ℕ) (space : String) (bytes : UInt64) : String :=
  let names := (scc.map fun i => (p.node i).name).mergeSort
  let cycle := match names with
    | [name] => "'" ++ name ++ "' calls itself"
    | _ => "the cycle '" ++ String.intercalate " -> " names ++ "' recurses"
  cycle ++ " and places up to " ++ toString bytes ++ " bytes in memory space '" ++ space ++
    "' per activation; the recursion depth is not known at compile time, so its working set is unbounded"

def settleAll (scc : List ℕ) (space : String) (f : Fold) : Fold :=
  scc.foldl (fun f i => settle p f i space (fun callee => callee ∈ scc)) f

def foldCycle (scc : List ℕ) (f : Fold) (entry : Sigma fun _ : String => SpaceBudget) : Fold :=
  let f := settleAll p scc entry.1 f
  let bytes := perActivation p scc entry.1
  if bytes = 0 then f
  else
    let f := scc.foldl (fun f i => f.markReported i entry.1) f
    f.refuse entry.1 entry.2 .E6028 (scc.head?.bind fun i => (p.node i).file) (cycleMessage p scc entry.1 bytes)
      none bytes

def cyclic (scc : List ℕ) : Bool :=
  1 < scc.length || scc.head?.any fun n => n ∈ p.succ n

def foldGroup (budgets : Budgets) (f : Fold) (scc : List ℕ) : Option Fold :=
  if cyclic p scc then some (budgets.entries.foldl (foldCycle p scc) f)
  else do
    let n ← scc.head?
    budgets.entries.foldlM (foldSingle p n) f

end Fold

def foldWithBudgets (summaries : List FnCapacitySummary) (budgets : Budgets) (errors : DiagnosticsVec) :
    Option DiagnosticsVec :=
  if budgets.entries = [] then some errors
  else do
    let p := Program.ofSummaries summaries
    let sccs ← sccsOf p.succ p.nodes.length
    let f ← sccs.foldlM (Fold.foldGroup p budgets) (Fold.start errors)
    return { f.errors with file := errors.file }

end Vx.Capacity
