/-
# Seekbase.Pipeline — the two compilers: of bounded queries, and of streams.

A compiler reads its segments from left to right.  Reading one may change the instance of its operator,
so the instances are a STATE, and what has happened to them stays when a later segment raises; beside it
runs the list of effects, for a compiler awaits the `prepare` hooks before it knows whether the next
segment is allowed.

* `stageSegment`, `stage` — the first loop of a query's compiler: classify, authorize, parse, prepare;
* `runs`, `fuseDuckRun`, `phasesOf` — the second one: contiguous runs, each fused into one phase;
* `compile`, `query`      — the whole read;
* `streamCompile`         — the other compiler, which prepares nothing and fuses nothing.
-/
import Mathlib.Logic.Function.Basic
import Seekbase.Operator

namespace Seekbase

/-! ## Plans -/

inductive PlanPhase where
  | duck (sql : String) (params : List Val)
  | bash (argvs : List (List String))

/-- A segment with the runtime it is assigned. -/
inductive Staged (ι α : Type) where
  | sql (segment : List Char)
  | duck (key : String) (op : Operator ι α) (args : α)
  | bash (key : String) (op : Operator ι α) (args : α)

def Staged.isBash {ι α : Type} : Staged ι α → Bool
  | .bash _ _ _ => true
  | _ => false

/-- What a read does besides computing. -/
inductive Event (α : Type) where
  | prepare (op : String) (args : α)
  | query (sql : String) (params : List Val)
  | plan (phases : List PlanPhase)

/-- The operator whose hook has run. -/
def Event.hook {α : Type} : Event α → Option String
  | .prepare op _ => some op
  | _ => none

/-- What the instances keep, by the key of their operator. -/
abbrev Held (ι : Type) := String → ι

/-- The end of a computation on the instances: what they keep is there also where it has raised. -/
structure Outcome (ι α β : Type) where
  result : Except PipeExc β
  held : Held ι
  events : List (Event α)

section Compile

variable {ι α : Type} (reg : Registry ι α) (p : Policy) (ctx : OperatorCtx)

/-- `_classify`, with the text after the leading token. -/
def classify (segment : List Char) : Option (String × Operator ι α × List Char) :=
  match lead segment with
  | some (token, rest) => (reg.resolve token).map fun e => (e.1, e.2, rest)
  | none => none

/-- `op.parse_args(split_args(…))`. -/
def readArgs (h : Held ι) (key : String) (op : Operator ι α) (rest : List Char) :
    Except PipeExc α × Held ι :=
  match splitArgs rest with
  | .error why => (.error (.badArguments why), h)
  | .ok tokens =>
    ((op.parseArgs (h key) tokens).1, Function.update h key (op.parseArgs (h key) tokens).2)

/-- `await op.prepare(args, ctx)`: the base class's does nothing. -/
def prepareArgs (h : Held ι) (key : String) (op : Operator ι α) (args : α) : Outcome ι α α :=
  match op.prepare with
  | none => ⟨.ok args, h, []⟩
  | some hook =>
    ⟨(hook (h key) ctx args).1, Function.update h key (hook (h key) ctx args).2,
      [.prepare op.name args]⟩

/-- The runtime of an operator. -/
def assign (key : String) (op : Operator ι α) (args : α) : Except PipeExc (Staged ι α) :=
  if op.optimizeDuck.isSome then .ok (.duck key op args)
  else if op.optimizeBash.isSome then
    match op.isSource with
    | .ok true => .error (.cannotStartQuery op.name)
    | .ok false => .ok (.bash key op args)
    | .error e => .error e
  else .error (.noRuntime op.name)

/-- What a bounded query asks of an operator before it reads the arguments. -/
def authorize (h : Held ι) (key : String) (op : Operator ι α) : Except PipeExc Unit :=
  match p.check op.name (op.caps (h key)) with
  | .error e => .error e
  | .ok () =>
    if op.bounded = false then .error (.unbounded op.name)
    else if op.name = "ingest" then .error .ingestInQuery
    else .ok ()

/-- One turn of the first loop. -/
def stageSegment (h : Held ι) (segment : List Char) : Outcome ι α (Staged ι α) :=
  match classify reg segment with
  | none => if ';' ∈ segment then ⟨.error .multiStatement, h, []⟩ else ⟨.ok (.sql segment), h, []⟩
  | some (key, op, rest) =>
    match authorize p h key op with
    | .error e => ⟨.error e, h, []⟩
    | .ok () =>
      match readArgs h key op rest with
      | (.error e, h) => ⟨.error e, h, []⟩
      | (.ok args, h) =>
        match prepareArgs ctx h key op args with
        | ⟨.error e, h, events⟩ => ⟨.error e, h, events⟩
        | ⟨.ok args, h, events⟩ => ⟨assign key op args, h, events⟩

/-- A loop over the segments that ends at the first one that raises. -/
def overSegments {β : Type} (one : Held ι → List Char → Outcome ι α β) :
    Held ι → List (List Char) → Outcome ι α (List β)
  | h, [] => ⟨.ok [], h, []⟩
  | h, segment :: segments =>
    match one h segment with
    | ⟨.error e, h, events⟩ => ⟨.error e, h, events⟩
    | ⟨.ok s, h, events⟩ =>
      let rest := overSegments one h segments
      ⟨rest.result.map (s :: ·), rest.held, events ++ rest.events⟩

section OverSegments

variable {β : Type} {one : Held ι → List Char → Outcome ι α β} {h h' h₁ : Held ι}
  {segment : List Char} {segments : List (List Char)} {events : List (Event α)}

theorem overSegments_error {e : PipeExc} (ho : one h segment = ⟨.error e, h', events⟩) :
    overSegments one h (segment :: segments) = ⟨.error e, h', events⟩ := by
  rw [overSegments, ho]

theorem overSegments_ok {s : β} (ho : one h segment = ⟨.ok s, h₁, events⟩) :
    overSegments one h (segment :: segments)
      = ⟨(overSegments one h₁ segments).result.map (s :: ·), (overSegments one h₁ segments).held,
          events ++ (overSegments one h₁ segments).events⟩ := by
  rw [overSegments, ho]

/-- A loop that has ended has gone through its first segment and through the rest. -/
theorem overSegments_cons_ok {xs : List β}
    (ho : overSegments one h (segment :: segments) = ⟨.ok xs, h', events⟩) :
    ∃ s xs' h₁ ev₁ ev₂, one h segment = ⟨.ok s, h₁, ev₁⟩
      ∧ overSegments one h₁ segments = ⟨.ok xs', h', ev₂⟩ ∧ xs = s :: xs' ∧ events = ev₁ ++ ev₂ := by
  match hone : one h segment with
  | ⟨.error e, h₁, ev₁⟩ =>
    rw [overSegments_error hone] at ho
    exact absurd (congrArg Outcome.result ho) (by simp)
  | ⟨.ok s, h₁, ev₁⟩ =>
    rw [overSegments_ok hone] at ho
    match hrest : overSegments one h₁ segments with
    | ⟨.error e, h₂, ev₂⟩ =>
      rw [hrest] at ho
      exact absurd (congrArg Outcome.result ho) (by simp [Except.map])
    | ⟨.ok xs', h₂, ev₂⟩ =>
      rw [hrest] at ho
      obtain ⟨hxs, rfl, rfl⟩ := Outcome.mk.inj ho
      exact ⟨s, xs', h₁, ev₁, ev₂, rfl, hrest, (Except.ok.inj hxs).symm, rfl⟩

end OverSegments

def stage : Held ι → List (List Char) → Outcome ι α (List (Staged ι α)) :=
  overSegments (stageSegment reg p ctx)

/-! ## Fusing -/

/-- A maximal run of one runtime. -/
inductive Run (ι α : Type) where
  | duck (items : List (Staged ι α))
  | bash (items : List (Staged ι α))

def Run.items {ι α : Type} : Run ι α → List (Staged ι α)
  | .duck items | .bash items => items

def Run.isBash {ι α : Type} : Run ι α → Bool
  | .duck _ => false
  | .bash _ => true

/-- The contiguous runs. -/
def runs : List (Staged ι α) → List (Run ι α)
  | [] => []
  | s :: rest =>
    match s.isBash, runs rest with
    | true, .bash items :: more => .bash (s :: items) :: more
    | true, more => .bash [s] :: more
    | false, .duck items :: more => .duck (s :: items) :: more
    | false, more => .duck [s] :: more

/-- Python's complaint about a call with the wrong number of arguments. -/
def wrongArity : PipeExc := .foreign "TypeError" "optimize_duck() takes another number of arguments"

/-- `WITH _in AS (SELECT * FROM prev) body`. -/
def withIn (prev body : String) : String := "WITH _in AS (SELECT * FROM " ++ prev ++ ") " ++ body

/-- One stage of a chain: its text, its parameters, and what is left of the user's. -/
def fuseItem (h : Held ι) (prev : Option String) (params : List Val) :
    Staged ι α → Except PipeExc (String × List Val × List Val)
  | .duck key op args =>
    match op.isSource, prev, op.optimizeDuck with
    | .error e, _, _ => .error e
    | .ok true, some _, _ => .error (.sourceInside op.name)
    | .ok false, none, _ => .error (.needsUpstream op.name)
    | .ok true, none, some (.source code) =>
      (code (h key) args).map fun r => (r.1, r.2, params)
    | .ok false, some prev, some (.middle code) =>
      (code (h key) "_in" args).map fun r => (withIn prev r.1, r.2, params)
    | .ok _, _, _ => .error wrongArity
  | .sql segment =>
    let need := countPlaceholders none segment
    if params.length < need then .error (.shortParams need params.length)
    else
      let body := String.ofList segment
      .ok ((match prev with
        | none => body
        | some prev => withIn prev body), params.take need, params.drop need)
  | .bash _ op _ => .error (.noRuntime op.name)

/-- The name of the stage that has so many before it. -/
def stageName (n : Nat) : String := "_s" ++ n.repr

/-- The stages of a chain by name and text, with all their parameters and the user's that are left. -/
def fuseStages (h : Held ι) : Nat → Option String → List Val → List (Staged ι α) →
    Except PipeExc (List (String × String) × List Val × List Val)
  | _, _, params, [] => .ok ([], [], params)
  | n, prev, params, s :: rest =>
    match fuseItem h prev params s with
    | .error e => .error e
    | .ok (body, used, params) =>
      (fuseStages h (n + 1) (some (stageName n)) params rest).map fun r =>
        ((stageName n, body) :: r.1, used ++ r.2.1, r.2.2)

/-- `WITH _s0 AS (…), … SELECT * FROM` the last stage. -/
def chainSql (ctes : List (String × String)) (prev : Option String) : String :=
  "WITH " ++ ", ".intercalate (ctes.map fun c => c.1 ++ " AS (" ++ c.2 ++ ")") ++ " SELECT * FROM "
    ++ ((ctes.getLast?.map Prod.fst).or prev).getD "None"

/-- `_fuse_duck_run`. -/
def fuseDuckRun (h : Held ι) (run : List (Staged ι α)) (params : List Val) (fromBridge : Bool) :
    Except PipeExc (String × List Val × List Val) :=
  let prev := if fromBridge then some "_bridge" else none
  (fuseStages h 0 prev params run).map fun r => (chainSql r.1 prev, r.2.1, r.2.2)

/-- `op.optimize_bash(args)` of one segment. -/
def bashArgv (h : Held ι) : Staged ι α → Except PipeExc (List String)
  | .bash key op args =>
    match op.optimizeBash with
    | some code => code (h key) args
    | none => .error (.noRuntime op.name)
  | .sql _ => .error .bashStarts
  | .duck _ op _ => .error (.noRuntime op.name)

/-- The second loop: `first` says that there is no phase yet. -/
def phasesOf (h : Held ι) : Bool → List Val → List (Run ι α) → Except PipeExc (List PlanPhase × List Val)
  | _, params, [] => .ok ([], params)
  | first, params, .bash items :: rest =>
    match items.mapM (bashArgv h) with
    | .error e => .error e
    | .ok argvs =>
      if first then .error .bashStarts
      else (phasesOf h false params rest).map fun r => (.bash argvs :: r.1, r.2)
  | first, params, .duck items :: rest =>
    match fuseDuckRun h items params !first with
    | .error e => .error e
    | .ok (sql, used, params) =>
      (phasesOf h false params rest).map fun r => (.duck sql used :: r.1, r.2)

/-- The plan of staged segments: all of the user's parameters have to be used. -/
def planOf (h : Held ι) (params : List Val) (staged : List (Staged ι α)) :
    Except PipeExc (List PlanPhase) :=
  match phasesOf h true params (runs staged) with
  | .error e => .error e
  | .ok (phases, []) => .ok phases
  | .ok (_, left) => .error (.unusedParams left.length)

/-- `PipelineService._compile`. -/
def compile (h : Held ι) (segments : List (List Char)) (params : List Val) :
    Outcome ι α (List PlanPhase) :=
  match stage reg p ctx h segments with
  | ⟨.error e, h, events⟩ => ⟨.error e, h, events⟩
  | ⟨.ok staged, h, events⟩ => ⟨planOf h params staged, h, events⟩

/-- What the store does with a statement, and with a plan. -/
structure Reads (ρ : Type) where
  runQuery : String → List Val → Except PipeExc ρ
  runPlan : List PlanPhase → Except PipeExc ρ

/-- The plan goes to the store. -/
def runPlanned {ρ : Type} (store : Reads ρ) : Outcome ι α (List PlanPhase) → Outcome ι α ρ
  | ⟨.error e, h, events⟩ => ⟨.error e, h, events⟩
  | ⟨.ok phases, h, events⟩ => ⟨store.runPlan phases, h, events ++ [.plan phases]⟩

/-- `PipelineService.query`. -/
def query {ρ : Type} (store : Reads ρ) (h : Held ι) (sql : List Char) (params : List Val) :
    Outcome ι α ρ :=
  let text := strip sql
  if text = [] then ⟨.error .emptyQuery, h, []⟩
  else
    match splitPipeline text with
    | none => ⟨.error .emptySegment, h, []⟩
    | some segments =>
      match segments, segments.map (classify reg) with
      | [segment], [none] =>
        ⟨store.runQuery (String.ofList segment) params, h, [.query (String.ofList segment) params]⟩
      | _, _ => runPlanned store (compile reg p ctx h segments params)

/-! ## Streams -/

structure Call (ι α : Type) where
  key : String
  op : Operator ι α
  args : α

/-- One turn of the loop of the stream's compiler. -/
def streamSegment (h : Held ι) (segment : List Char) : Outcome ι α (Call ι α) :=
  match classify reg segment with
  | none => ⟨.error (.notOperator (String.ofList segment)), h, []⟩
  | some (key, op, rest) =>
    match p.check op.name (op.caps (h key)) with
    | .error e => ⟨.error e, h, []⟩
    | .ok () =>
      match readArgs h key op rest with
      | (.error e, h) => ⟨.error e, h, []⟩
      | (.ok args, h) => ⟨.ok ⟨key, op, args⟩, h, []⟩

/-- A stream that may start: where it reads, what its middles spawn, where it lands. -/
structure StreamPlan (α : Type) where
  source : α
  middles : List (List String)
  sink : α

/-- `op.optimize_bash(args)` of a middle. -/
def middleArgv (h : Held ι) (c : Call ι α) : Except PipeExc (List String) :=
  match c.op.optimizeBash with
  | some code => code (h c.key) c.args
  | none => .error (.notBashNative c.op.name)

/-- The checks on the parsed segments; `sinkTable` is the lookup of `tail_args.table`. -/
def streamOf (sinkTable : α → Except PipeExc Unit) (h : Held ι) :
    List (Call ι α) → Except PipeExc (StreamPlan α)
  | source :: middle :: more =>
    let sink := (middle :: more).getLast (by simp)
    if source.op.bounded then .error (.boundedSource source.op.name)
    else if sink.op.name ≠ "ingest" then .error .noSink
    else
      match sinkTable sink.args with
      | .error e => .error e
      | .ok () =>
        ((middle :: more).dropLast.mapM (middleArgv h)).map fun argvs =>
          ⟨source.args, argvs, sink.args⟩
  | _ => .error .shortStream

/-- `StreamService._compile`. -/
def streamCompile (sinkTable : α → Except PipeExc Unit) (h : Held ι) (pipeline : List Char) :
    Outcome ι α (StreamPlan α) :=
  match splitPipeline pipeline with
  | none => ⟨.error .emptySegment, h, []⟩
  | some segments =>
    if segments.length < 2 then ⟨.error .shortStream, h, []⟩
    else
      match overSegments (streamSegment reg p) h segments with
      | ⟨.error e, h, events⟩ => ⟨.error e, h, events⟩
      | ⟨.ok calls, h, events⟩ => ⟨streamOf sinkTable h calls, h, events⟩

end Compile

end Seekbase
