import Mathlib

namespace Vx.Capacity

structure Span where
  line : ℕ
  column : ℕ
  length : ℕ
  expansion : ℕ
deriving DecidableEq, Repr

structure SourceSpan where
  line : ℕ
  column : ℕ
  length : ℕ
deriving DecidableEq, Repr

def SourceSpan.fromAstSpan (span : Span) : SourceSpan := ⟨span.line, span.column, span.length⟩

abbrev Bytes := AList fun _ : String => UInt64

def bytesIn (bytes : Bytes) (space : String) : UInt64 := (bytes.lookup space).getD 0

structure CallEdge where
  callee : String
  live : Bytes
  span : Span

structure FnCapacitySummary where
  name : String
  file : Option String
  selfPeak : Bytes
  calls : List CallEdge

structure SpaceBudget where
  cap : UInt64
  overcommit : Bool

abbrev Budgets := AList fun _ : String => SpaceBudget

inductive DiagnosticLevel
  | error
  | warning
deriving DecidableEq, Repr

inductive DiagnosticCode
  | W1028
  | E6027
  | E6028
deriving DecidableEq, Repr

structure CapacityFacts where
  space : String
  requiredBytes : UInt64
  availableBytes : UInt64
deriving DecidableEq, Repr

structure Diagnostic where
  level : DiagnosticLevel
  code : DiagnosticCode
  message : String
  sourceSpan : Option SourceSpan
  file : Option String
  facts : CapacityFacts
deriving DecidableEq, Repr

structure DiagnosticsVec where
  inner : List Diagnostic
  file : Option String
deriving DecidableEq, Repr

def DiagnosticsVec.refuse (errors : DiagnosticsVec) (budget : SpaceBudget) (code : DiagnosticCode)
    (file : Option String) (message : String) (span : Option SourceSpan) (facts : CapacityFacts) : DiagnosticsVec :=
  let diagnostic : Diagnostic :=
    if budget.overcommit then
      { level := .warning
        code := .W1028
        message := message ++ "; allowed because '" ++ facts.space ++ "' is `overcommit`"
        sourceSpan := span
        file := file
        facts := facts }
    else
      { level := .error
        code := code
        message := message
        sourceSpan := span
        file := file
        facts := facts }
  { inner := errors.inner ++ [diagnostic], file := file }

structure Program where
  nodes : List FnCapacitySummary
  index : AList fun _ : String => ℕ

namespace Program

def empty : Program := ⟨[], ∅⟩

def add (p : Program) (s : FnCapacitySummary) : Program :=
  if s.name ∈ p.index then p else ⟨p.nodes ++ [s], p.index.insert s.name p.nodes.length⟩

def ofSummaries (summaries : List FnCapacitySummary) : Program := summaries.foldl add empty

def node (p : Program) (n : ℕ) : FnCapacitySummary := p.nodes.getD n ⟨"", none, ∅, []⟩

def succ (p : Program) (n : ℕ) : List ℕ := (p.node n).calls.filterMap fun call => p.index.lookup call.callee

structure Indexed (p : Program) (summaries : List FnCapacitySummary) : Prop where
  lookup_some : ∀ name i, p.index.lookup name = some i →
    ∃ s, p.nodes[i]? = some s ∧ summaries.find? (·.name = name) = some s
  lookup_none : ∀ name, p.index.lookup name = none → summaries.find? (·.name = name) = none
  lookup_node : ∀ i s, p.nodes[i]? = some s → p.index.lookup s.name = some i

theorem indexed_add {p : Program} {summaries : List FnCapacitySummary} (h : p.Indexed summaries)
    (s : FnCapacitySummary) : (p.add s).Indexed (summaries ++ [s]) := by
  by_cases hin : s.name ∈ p.index
  · have hp : p.add s = p := if_pos hin
    have hfind : ∀ name, p.index.lookup name = none → s.name ≠ name := by
      rintro name hnone rfl
      exact AList.lookup_eq_none.mp hnone hin
    rw [hp]
    refine ⟨fun name i hi => ?_, fun name hn => ?_, h.lookup_node⟩
    · obtain ⟨s', hs', hf⟩ := h.lookup_some name i hi
      exact ⟨s', hs', by simp [List.find?_append, hf]⟩
    · simp [List.find?_append, h.lookup_none name hn, hfind name hn]
  · have hp : p.add s = ⟨p.nodes ++ [s], p.index.insert s.name p.nodes.length⟩ := if_neg hin
    have hnew : p.index.lookup s.name = none := AList.lookup_eq_none.mpr hin
    rw [hp]
    refine ⟨fun name i hi => ?_, fun name hn => ?_, fun i s' hs' => ?_⟩
    · by_cases hname : name = s.name
      · subst hname
        obtain rfl : p.nodes.length = i := by simpa using hi
        exact ⟨s, by simp, by simp [List.find?_append, h.lookup_none _ hnew]⟩
      · rw [AList.lookup_insert_ne hname] at hi
        obtain ⟨s', hs', hf⟩ := h.lookup_some name i hi
        refine ⟨s', ?_, by simp [List.find?_append, hf]⟩
        rw [List.getElem?_append_left (List.getElem?_eq_some_iff.mp hs').1, hs']
    · have hname : name ≠ s.name := by
        rintro rfl
        simp at hn
      rw [AList.lookup_insert_ne hname] at hn
      simp [List.find?_append, h.lookup_none name hn, Ne.symm hname]
    · rcases Nat.lt_trichotomy i p.nodes.length with hlt | rfl | hgt
      · rw [List.getElem?_append_left hlt] at hs'
        have hi := h.lookup_node i s' hs'
        have hname : s'.name ≠ s.name := by
          intro he
          rw [he, hnew] at hi
          cases hi
        rw [AList.lookup_insert_ne hname, hi]
      · obtain rfl : s = s' := by simpa using hs'
        simp
      · rw [List.getElem?_eq_none (by simp; omega)] at hs'
        cases hs'

theorem indexed_foldl {p : Program} {taken : List FnCapacitySummary} (h : p.Indexed taken)
    (summaries : List FnCapacitySummary) : (summaries.foldl add p).Indexed (taken ++ summaries) := by
  induction summaries generalizing p taken with
  | nil => simpa using h
  | cons s summaries ih => simpa using ih (indexed_add h s)

theorem ofSummaries_indexed (summaries : List FnCapacitySummary) : (ofSummaries summaries).Indexed summaries := by
  have h : empty.Indexed [] := by constructor <;> simp [empty]
  simpa [ofSummaries] using indexed_foldl h summaries

variable {p : Program} {summaries : List FnCapacitySummary} {name : String} {i : ℕ}

theorem node_eq {s : FnCapacitySummary} (h : p.nodes[i]? = some s) : p.node i = s := by
  simp [node, List.getD, h]

variable (h : p.Indexed summaries)
include h

theorem Indexed.lookup_lt (hi : p.index.lookup name = some i) : i < p.nodes.length := by
  obtain ⟨s, hs, _⟩ := h.lookup_some name i hi
  exact (List.getElem?_eq_some_iff.mp hs).1

theorem Indexed.succ_lt : ∀ v < p.nodes.length, ∀ w ∈ p.succ v, w < p.nodes.length := by
  intro v _ w hw
  obtain ⟨call, _, hcall⟩ := List.mem_filterMap.mp hw
  exact h.lookup_lt hcall

theorem Indexed.find_node (hi : p.index.lookup name = some i) : summaries.find? (·.name = name) = some (p.node i) := by
  obtain ⟨s, hs, hf⟩ := h.lookup_some name i hi
  rw [node_eq hs, hf]

theorem Indexed.node_name (hi : p.index.lookup name = some i) : (p.node i).name = name := by
  simpa using List.find?_some (h.find_node hi)

end Program

end Vx.Capacity
