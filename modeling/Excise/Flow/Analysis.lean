import Excise.Flow.Site
import Excise.Text.Quoted

/-!
# Following a module through a program

A variable is tainted once it is known to hold a value that comes from the target module. The
analysis starts from the sites of the module (`Analysis.ofSites`) and then runs passes: each visits
the uses, not visited before, of the variables that are tainted when it begins, and may taint more
(`Analysis.pass`). It ends with the first pass that taints nothing new (`Analysis.saturate`). There
are no more passes than variables and one, since every other pass taints one.
-/

namespace Excise

/-- What an analysis reports as it runs: a variable enters the tainted ones, the seeding is over, or
a pass is. -/
inductive AnalysisEvent where
  | tainted (name : String) (kind : BindingKind) (line : Nat)
  | seeded (sites : Nat) (target : String) (bindings : Nat)
  | passed (pass : Nat) (grown : Nat)
deriving DecidableEq

/-- The text of a report. -/
def AnalysisEvent.message : AnalysisEvent → String
  | .tainted name kind line => s!"tainted {name} ({kind.text}, line {line})"
  | .seeded sites target bindings =>
      s!"found {sites} {Text.quote target} site(s), {bindings} binding(s) seeded"
  | .passed pass grown => s!"pass {pass}: {grown} new tainted binding(s)"

/-- The state of an analysis: the tainted variables in the order in which they were found, the plan
so far, the number of passes begun, the uses visited, and the reports made. -/
structure Analysis where
  tainted : List Binding
  plan : Plan
  passes : Nat
  visited : List Node
  log : List AnalysisEvent
deriving DecidableEq

namespace Analysis

/-- The state before anything is known. -/
def start : Analysis := ⟨[], .empty, 0, [], []⟩

variable (t : Tree) (r : Resolution)

/-- Taint a variable, unless it is tainted. -/
def taint (s : Analysis) (b : Binding) : Analysis :=
  if b ∈ s.tainted then s
  else { s with
    tainted := s.tainted ++ [b]
    log := s.log ++ [.tainted b.name b.kind (t.bindingLine b)] }

/-- Take the effect of a site or a use into account. -/
def absorb (s : Analysis) (e : Effect) : Analysis :=
  e.bindings.foldl (taint t) { s with plan := s.plan.recordOptional e.entry }

/-- Add a report. -/
def report (s : Analysis) (e : AnalysisEvent) : Analysis := { s with log := s.log ++ [e] }

/-- Take the sites of the target module into account. -/
def ofSites (target : String) : Analysis :=
  let sites := t.sites r target
  let s := sites.foldl (fun s site => absorb t s (t.siteEffect r site)) start
  s.report (.seeded sites.length target s.tainted.length)

/-- Take one use into account, unless it was visited before. -/
def visit (s : Analysis) (n : Node) : Analysis :=
  if n ∈ s.visited then s
  else absorb t { s with visited := s.visited ++ [n] } (t.referenceEffect r n)

/-- The uses of the tainted variables, by the place where each variable is first declared. -/
def frontier (s : Analysis) : List Node :=
  (s.tainted.mergeSort fun a b => t.bindingStart a ≤ t.bindingStart b).flatMap r.usesOf

/-- Visit the uses of the variables tainted so far. -/
def pass (s : Analysis) : Analysis :=
  let s' := (frontier t r s).foldl (visit t r) { s with passes := s.passes + 1 }
  s'.report (.passed s'.passes (s'.tainted.length - s.tainted.length))

/-- Run passes until one taints nothing new, and at most so many. -/
def saturate : Nat → Analysis → Analysis
  | 0, s => s
  | limit + 1, s =>
      let s' := pass t r s
      if s'.tainted.length = s.tainted.length then s' else saturate limit s'

/-- The finished analysis, from given bindings. -/
def runWith (target : String) : Analysis :=
  saturate t r (r.bindings.length + 1) (ofSites t r target)

/-- Follow the target module through the tree. -/
def run (target : String) : Analysis := runWith t t.resolution target

end Analysis

end Excise
