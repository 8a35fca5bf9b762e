/-
# Seekbase.Operator — operators, the registry that holds them, and the policy that admits them.

An operator is a class with code of its own, so a theorem about every registry is a theorem about every
`Operator`: its methods are FUNCTIONS on the state of the instance, which `parse_args` may change (the
documented way to set the capabilities a segment needs from its arguments).  A method that is not
overridden is `none`, for presence is what the compilers look at.

* `Cap`, `Policy.check`     — a capability, and the verdict on an operator by its name and capabilities;
* `Operator`, `isSource`    — the cells an operator implements, and the position they imply;
* `Registry`                — no key twice, none a leading keyword of SQL; built by `register` alone;
* `search` … `ingest`       — the operators every store has.
-/
import Seekbase.Text

namespace Seekbase

/-! ## Errors -/

inductive Cap where
  | pure
  | fsRead
  | fsWrite
  | net
  | exec
  deriving DecidableEq

def Cap.value : Cap → String
  | .pure => "pure"
  | .fsRead => "fs_read"
  | .fsWrite => "fs_write"
  | .net => "net"
  | .exec => "exec"

/-- The capabilities in the order of their texts. -/
def Cap.sorted : List Cap := [.exec, .fsRead, .fsWrite, .net, .pure]

inductive Mode where
  | readOnly
  | sandboxed
  | trusted
  deriving DecidableEq

def Mode.value : Mode → String
  | .readOnly => "read-only"
  | .sandboxed => "sandboxed"
  | .trusted => "trusted"

/-- Why a policy refuses an operator. -/
inductive Denial where
  | byName (op : String)
  | byCaps (op : String) (caps : List Cap)
  | notListed (op : String)
  | notInMode (op : String) (caps : List Cap) (mode : Mode)

/-- What compiling a pipeline can raise, with the data its text names.  Code of an operator raises
`foreign`, where that is not one of these. -/
inductive PipeExc where
  | denied (d : Denial)
  | emptyQuery
  | emptySegment
  | badArguments (why : String)
  | optionValue (option : String)
  | usage (text : String)
  | searchInt
  | searchPositive
  | watchInt
  | ingestInt
  | unknownTable (table : String)
  | needsCol (table : String) (searchable : List String)
  | notSearchable (table col : String)
  | noEmbedder
  | illegalField (field : String)
  | noCell (op : String)
  | badName
  | keyword (op : String)
  | registered (op : String)
  | multiStatement
  | unbounded (op : String)
  | ingestInQuery
  | cannotStartQuery (op : String)
  | bashStarts
  | noRuntime (op : String)
  | sourceInside (op : String)
  | needsUpstream (op : String)
  | shortParams (need left : Nat)
  | unusedParams (n : Nat)
  | shortStream
  | notOperator (segment : String)
  | boundedSource (op : String)
  | noSink
  | notBashNative (op : String)
  | readOnly (why : String)
  | foreign (cls message : String)

/-- The class the source raises. -/
def PipeExc.cls : PipeExc → String
  | .denied _ => "PermissionDenied"
  | .unknownTable _ => "SchemaError"
  | .readOnly _ => "ReadOnlyError"
  | .foreign cls _ => cls
  | _ => "QueryError"

def capList (repr : String → String) (caps : List Cap) : String :=
  "[" ++ ", ".intercalate (caps.map fun c => repr c.value) ++ "]"

def Denial.message (repr : String → String) : Denial → String
  | .byName op => "operator " ++ repr op ++ " is denied by policy"
  | .byCaps op caps => "operator " ++ repr op ++ " needs denied capability " ++ capList repr caps
  | .notListed op => "operator " ++ repr op ++ " is not in the policy allowlist"
  | .notInMode op caps mode =>
    "operator " ++ repr op ++ " needs " ++ capList repr caps ++ " — not allowed in "
      ++ repr mode.value ++ " mode (escalate to 'sandboxed'/'trusted')"

/-- The texts the source gives; `repr` is Python's `repr` of a string. -/
def PipeExc.message (repr : String → String) : PipeExc → String
  | .denied d => d.message repr
  | .emptyQuery => "empty query"
  | .emptySegment => "empty pipeline segment"
  | .badArguments why => "bad operator arguments: " ++ why
  | .optionValue option => "option " ++ option ++ " needs a value"
  | .usage text => "usage: " ++ text
  | .searchInt => "search: --k must be an integer"
  | .searchPositive => "search: --k must be positive"
  | .watchInt => "watch: --poll-ms must be an integer"
  | .ingestInt => "ingest: --batch/--flush-ms must be integers"
  | .unknownTable table => "unknown table " ++ repr table
  | .needsCol table searchable =>
    "search " ++ table ++ ": --col is required (searchable columns: "
      ++ (if searchable = [] then "none" else "[" ++ ", ".intercalate (searchable.map repr) ++ "]")
      ++ ")"
  | .notSearchable table col => "search " ++ table ++ ": column " ++ repr col ++ " is not searchable"
  | .noEmbedder => "search needs a searchable column + an embedder"
  | .illegalField field => "grep: illegal field " ++ repr field
  | .noCell op => "operator " ++ repr op ++ " implements no executable cell"
  | .badName => "operator has no name"
  | .keyword op => "operator name " ++ repr op ++ " collides with a SQL leading keyword"
  | .registered op => "operator " ++ repr op ++ " is already registered"
  | .multiStatement => "a pipeline SQL segment must be a single statement"
  | .unbounded op =>
    op ++ " is an unbounded source — it cannot enter a bounded query (the duck runtime needs a finite "
      ++ "relation); use db.stream()"
  | .ingestInQuery => "ingest is a streaming sink; use db.stream()"
  | .cannotStartQuery op => op ++ " cannot start a bounded query"
  | .bashStarts => "a bash segment cannot start a bounded query"
  | .noRuntime op => "operator " ++ repr op ++ " has no runtime implementation"
  | .sourceInside op => op ++ " is a source — it must start the pipeline"
  | .needsUpstream op => op ++ " needs an upstream — it cannot start a pipeline"
  | .shortParams need left =>
    "pipeline segment needs " ++ need.repr ++ " params, only " ++ left.repr ++ " left"
  | .unusedParams n => n.repr ++ " unused query params"
  | .shortStream => "a stream needs at least \x60watch '<glob>' | ingest <table>\x60"
  | .notOperator segment =>
    "a stream pipeline holds only operators (SQL runs on the landed table via db.query): bad segment "
      ++ repr (String.ofList (segment.toList.take 40))
  | .boundedSource op => "a stream's source must be unbounded (got " ++ repr op ++ ")"
  | .noSink => "a stream must end in \x60ingest <table>\x60"
  | .notBashNative op => "stream middles must be bash-native (got " ++ repr op ++ ")"
  | .readOnly why => why
  | .foreign _ message => message

/-! ## The policy -/

/-- `_MODE_CAPS`. -/
def Mode.caps : Mode → List Cap
  | .readOnly => [.pure, .fsRead, .net]
  | .sandboxed => [.pure, .fsRead, .net, .exec, .fsWrite]
  | .trusted => [.pure, .fsRead, .fsWrite, .net, .exec]

structure Policy where
  mode : Mode
  allow : List String
  deny : List String
  denyCaps : List Cap

/-- `Policy.check`, on the name and the capabilities the instance has at the time. -/
def Policy.check (p : Policy) (name : String) (caps : List Cap) : Except PipeExc Unit :=
  let hit := Cap.sorted.filter fun c => c ∈ caps && c ∈ p.denyCaps
  let missing := Cap.sorted.filter fun c => c ∈ caps && c ∉ p.mode.caps
  if name ∈ p.deny then .error (.denied (.byName name))
  else if hit ≠ [] then .error (.denied (.byCaps name hit))
  else if p.allow ≠ [] ∧ name ∉ p.allow then .error (.denied (.notListed name))
  else if missing ≠ [] then .error (.denied (.notInMode name missing p.mode))
  else .ok ()

/-- An operator with these capabilities may run. -/
def Policy.Allows (p : Policy) (name : String) (caps : List Cap) : Prop :=
  name ∉ p.deny ∧ (∀ c ∈ caps, c ∉ p.denyCaps) ∧ (p.allow = [] ∨ name ∈ p.allow)
    ∧ ∀ c ∈ caps, c ∈ p.mode.caps

instance (p : Policy) (name : String) (caps : List Cap) : Decidable (p.Allows name caps) :=
  inferInstanceAs (Decidable (_ ∧ (∀ c ∈ caps, _) ∧ _ ∧ ∀ c ∈ caps, _))

/-- A mode grants a capability that is not denied. -/
def Policy.Grants (p : Policy) (c : Cap) : Prop := c ∈ p.mode.caps ∧ c ∉ p.denyCaps

instance (p : Policy) (c : Cap) : Decidable (p.Grants c) :=
  inferInstanceAs (Decidable (_ ∧ _))

theorem Cap.mem_sorted (c : Cap) : c ∈ Cap.sorted := by
  cases c <;> decide

theorem filter_sorted_nil (P : Cap → Bool) :
    Cap.sorted.filter P = [] ↔ ∀ c, P c = false := by
  rw [List.filter_eq_nil_iff]
  exact ⟨fun h c => by simpa using h c c.mem_sorted, fun h c _ => by simp [h c]⟩

/-- The check accepts exactly what the policy allows; anything else it raises is a denial. -/
theorem Policy.check_spec (p : Policy) (name : String) (caps : List Cap) :
    (p.Allows name caps ∧ p.check name caps = .ok ())
      ∨ ¬ p.Allows name caps ∧ ∃ d, p.check name caps = .error (.denied d) := by
  unfold Policy.check
  dsimp only
  split
  · next h => exact Or.inr ⟨fun ha => ha.1 h, _, rfl⟩
  · next hname =>
    split
    · next h =>
      refine Or.inr ⟨fun ha => h ?_, _, rfl⟩
      rw [filter_sorted_nil]
      intro c
      by_cases hc : c ∈ caps
      · simp [hc, ha.2.1 c hc]
      · simp [hc]
    · next hhit =>
      split
      · next h => exact Or.inr ⟨fun ha => ha.2.2.1.elim h.1 h.2, _, rfl⟩
      · next hlist =>
        split
        · next h =>
          refine Or.inr ⟨fun ha => h ?_, _, rfl⟩
          rw [filter_sorted_nil]
          intro c
          by_cases hc : c ∈ caps
          · simp [hc, ha.2.2.2 c hc]
          · simp [hc]
        · next hmiss =>
          have hhit' := (filter_sorted_nil _).mp (not_not.mp hhit)
          have hmiss' := (filter_sorted_nil _).mp (not_not.mp hmiss)
          refine Or.inl ⟨⟨hname, fun c hc => ?_, ?_, fun c hc => ?_⟩, rfl⟩
          · simpa [hc] using hhit' c
          · by_cases ha : p.allow = []
            · exact Or.inl ha
            · exact Or.inr (by_contra fun hn => hlist ⟨ha, hn⟩)
          · simpa [hc] using hmiss' c

theorem Policy.check_ok_iff (p : Policy) (name : String) (caps : List Cap) :
    p.check name caps = .ok () ↔ p.Allows name caps := by
  rcases p.check_spec name caps with ⟨ha, hc⟩ | ⟨ha, d, hc⟩
  · exact iff_of_true hc ha
  · exact iff_of_false (by simp [hc]) ha

theorem Policy.allows_grants {p : Policy} {name : String} {caps : List Cap}
    (h : p.Allows name caps) {c : Cap} (hc : c ∈ caps) : p.Grants c :=
  ⟨h.2.2.2 c hc, h.2.1 c hc⟩

/-! ## Operators -/

/-- What `prepare` reaches through its context. -/
structure OperatorCtx where
  table : String → Except PipeExc TableSpec
  /-- A query text's vector and tokens; nothing where no embedder is wired. -/
  embed : Option (String → Except PipeExc (Val × String))
  searchLower : String → String → Val → String → Nat → Except PipeExc (String × List Val)
  visibleSql : String → Except PipeExc String

/-- `optimize_duck` in its two forms: a source takes no upstream relation. -/
inductive DuckForm (ι α : Type) where
  | source (code : ι → α → Except PipeExc (String × List Val))
  | middle (code : ι → String → α → Except PipeExc (String × List Val))

/-- An operator class.  `ι` is what an instance keeps between calls, `α` what `parse_args` makes of the
tokens. -/
structure Operator (ι α : Type) where
  name : String
  bounded : Bool
  caps : ι → List Cap
  parseArgs : ι → List String → Except PipeExc α × ι
  prepare : Option (ι → OperatorCtx → α → Except PipeExc α × ι)
  /-- An override of `is_source`. -/
  source : Option Bool
  optimizeDuck : Option (DuckForm ι α)
  /-- Whether `run_duck` takes the upstream relation. -/
  runDuck : Option Bool
  optimizeBash : Option (ι → α → Except PipeExc (List String))
  runBash : Bool

namespace Operator

variable {ι α : Type} (op : Operator ι α)

/-- `is_source`: an override, else the signature of the first duck cell, else a bash middle. -/
def isSource : Except PipeExc Bool :=
  match op.source, op.optimizeDuck, op.runDuck with
  | some b, _, _ => .ok b
  | none, some (.source _), _ => .ok true
  | none, some (.middle _), _ => .ok false
  | none, none, some upstream => .ok !upstream
  | none, none, none =>
    if op.optimizeBash.isSome || op.runBash then .ok false else .error (.noCell op.name)

variable {op} in
theorem isSource_error {e : PipeExc} (h : op.isSource = .error e) : e = .noCell op.name := by
  unfold isSource at h
  match hs : op.source, hd : op.optimizeDuck, hr : op.runDuck with
  | some b, _, _ => simp [hs] at h
  | none, some (.source _), _ => simp [hs, hd] at h
  | none, some (.middle _), _ => simp [hs, hd] at h
  | none, none, some upstream => simp [hs, hd, hr] at h
  | none, none, none =>
    simp only [hs, hd, hr] at h
    split at h
    · exact absurd h (by simp)
    · exact (Except.error.inj h).symm

end Operator

/-! ## The registry -/

def sqlLeadingKeywords : List String :=
  ["select", "with", "from", "values", "table", "show", "describe", "summarize", "pragma", "explain"]

structure Registry (ι α : Type) where
  ops : List (String × Operator ι α)
  keysNodup : (ops.map Prod.fst).Nodup
  noKeyword : ∀ k ∈ ops.map Prod.fst, k ∉ sqlLeadingKeywords

namespace Registry

variable {ι α : Type}

def empty : Registry ι α := ⟨[], by simp, by simp⟩

/-- `register`: the checks in the order of the source. -/
def register (r : Registry ι α) (op : Operator ι α) : Except PipeExc (Registry ι α) :=
  let key := pyLower op.name
  if key = "" then .error .badName
  else if hk : key ∈ sqlLeadingKeywords then .error (.keyword key)
  else if hn : key ∈ r.ops.map Prod.fst then .error (.registered key)
  else
    match op.isSource with
    | .error e => .error e
    | .ok _ =>
      .ok {
        ops := r.ops ++ [(key, op)]
        keysNodup := by
          rw [List.map_append, List.nodup_append]
          refine ⟨r.keysNodup, List.nodup_singleton _, ?_⟩
          intro a ha b hb
          obtain rfl := List.mem_singleton.mp hb
          rintro rfl
          exact hn ha
        noKeyword := by
          intro k hmem
          rw [List.map_append, List.mem_append] at hmem
          rcases hmem with hold | hnew
          · exact r.noKeyword k hold
          · obtain rfl := List.mem_singleton.mp hnew
            exact hk }

/-- `resolve`: the key and the operator of a leading token. -/
def resolve (r : Registry ι α) (token : String) : Option (String × Operator ι α) :=
  r.ops.find? fun e => e.1 = pyLower token

theorem resolve_key {r : Registry ι α} {token key : String} {op : Operator ι α}
    (h : r.resolve token = some (key, op)) : key = pyLower token := by
  simpa [resolve] using List.find?_some h

theorem resolve_mem {r : Registry ι α} {token key : String} {op : Operator ι α}
    (h : r.resolve token = some (key, op)) : (key, op) ∈ r.ops :=
  List.mem_of_find?_eq_some h

theorem register_ops {r r' : Registry ι α} {op : Operator ι α} (h : r.register op = .ok r') :
    r'.ops = r.ops ++ [(pyLower op.name, op)] := by
  unfold register at h
  dsimp only at h
  repeat' split at h
  all_goals cases h
  rfl

end Registry

/-! ## The built-in operators -/

/-- The arguments of the built-in operators, with what `prepare` adds. -/
inductive Args where
  | search (table text : String) (col : Option String) (k : Nat) (lowered : Option (String × List Val))
  | scan (table : String) (lowered : Option String)
  | grep (pattern field : String)
  | sh (command : String)
  | jq (script : String)
  | watch (glob : String) (pollMs : Int)
  | ingest (table : String) (batch flushMs : Int)

/-- Python's complaint about an attribute that `prepare` would have set. -/
def noAttribute (name : String) : PipeExc :=
  .foreign "AttributeError" ("'types.SimpleNamespace' object has no attribute '" ++ name ++ "'")

/-- `parse_args` of an operator that leaves its instance as it is. -/
def stateless {ι α : Type} (parse : List String → Except PipeExc α) (self : ι)
    (tokens : List String) : Except PipeExc α × ι := (parse tokens, self)

def tokensOf (tokens : List String) : Except PipeExc (List String × List (String × String)) :=
  (parseTokens tokens).mapError .optionValue

def searchUsage : PipeExc := .usage "search <table> '<text>' [--col <c>] [--k <n>]"

def searchArgs (tokens : List String) : Except PipeExc Args := do
  match ← tokensOf tokens with
  | ([table, text], opts) =>
    match pyInt ((lookup "k" opts).getD "100") with
    | none => .error .searchInt
    | some k =>
      if k ≤ 0 then .error .searchPositive
      else .ok (.search table text (lookup "col" opts) k.toNat none)
  | _ => .error searchUsage

/-- The column a search is over. -/
def searchCol (table : String) (spec : TableSpec) : Option String → Except PipeExc String
  | none =>
    match spec.searchable with
    | [c] => .ok c
    | cs => .error (.needsCol table cs)
  | some c => if c ∈ spec.searchable then .ok c else .error (.notSearchable table c)

def searchPrepare (ctx : OperatorCtx) : Args → Except PipeExc Args
  | .search table text col k _ => do
    let spec ← ctx.table table
    let c ← searchCol table spec col
    match ctx.embed with
    | none => .error .noEmbedder
    | some embed =>
      let (qvec, qtok) ← embed text
      let lowered ← ctx.searchLower table c qvec qtok k
      .ok (.search table text (some c) k (some lowered))
  | _ => .error (noAttribute "table")

def scanArgs (tokens : List String) : Except PipeExc Args := do
  match ← tokensOf tokens with
  | ([table], []) => .ok (.scan table none)
  | _ => .error (.usage "scan <table>")

def scanPrepare (ctx : OperatorCtx) : Args → Except PipeExc Args
  | .scan table _ => do
    let _ ← ctx.table table
    let sql ← ctx.visibleSql table
    .ok (.scan table (some sql))
  | _ => .error (noAttribute "table")

def grepArgs (tokens : List String) : Except PipeExc Args := do
  match ← tokensOf tokens with
  | ([pattern], opts) =>
    match lookup "field" opts with
    | some field => .ok (.grep pattern field)
    | none => .error (.usage "grep '<pattern>' --field <col>")
  | _ => .error (.usage "grep '<pattern>' --field <col>")

/-- `field.replace("_", "").isalnum()`. -/
def grepField (alnum : Char → Bool) (field : String) : Bool :=
  let cs := field.toList.filter (· != '_')
  !cs.isEmpty && cs.all alnum

def shArgs (usage : String) (make : String → Args) : List String → Except PipeExc Args
  | [t] => .ok (make t)
  | _ => .error (.usage usage)

def watchArgs (tokens : List String) : Except PipeExc Args := do
  match ← tokensOf tokens with
  | ([glob], opts) =>
    match pyInt ((lookup "poll-ms" opts).getD "200") with
    | none => .error .watchInt
    | some ms => .ok (.watch glob (max 20 ms))
  | _ => .error (.usage "watch '<glob>' [--poll-ms <n>]")

def ingestArgs (tokens : List String) : Except PipeExc Args := do
  match ← tokensOf tokens with
  | ([table], opts) =>
    match pyInt ((lookup "batch" opts).getD "64"), pyInt ((lookup "flush-ms" opts).getD "200") with
    | some batch, some ms => .ok (.ingest table (max 1 batch) (max 20 ms))
    | _, _ => .error .ingestInt
  | _ => .error (.usage "ingest <table> [--batch <n>] [--flush-ms <n>]")

section Builtins

variable {ι : Type}

def search : Operator ι Args where
  name := "search"
  bounded := true
  caps _ := [.pure]
  parseArgs := stateless searchArgs
  prepare := some fun self ctx args => (searchPrepare ctx args, self)
  source := none
  optimizeDuck := some (.source fun _ args =>
    match args with
    | .search _ _ _ _ (some lowered) => .ok lowered
    | _ => .error (noAttribute "_sql"))
  runDuck := none
  optimizeBash := none
  runBash := false

def scan : Operator ι Args where
  name := "scan"
  bounded := true
  caps _ := [.pure]
  parseArgs := stateless scanArgs
  prepare := some fun self ctx args => (scanPrepare ctx args, self)
  source := none
  optimizeDuck := some (.source fun _ args =>
    match args with
    | .scan _ (some sql) => .ok (sql, [])
    | _ => .error (noAttribute "_sql"))
  runDuck := none
  optimizeBash := none
  runBash := false

def grepSql (prev field : String) : String :=
  "SELECT * FROM " ++ prev ++ " WHERE regexp_matches(CAST(\"" ++ field ++ "\" AS VARCHAR), ?)"

def grep (alnum : Char → Bool) : Operator ι Args where
  name := "grep"
  bounded := true
  caps _ := [.pure]
  parseArgs := stateless grepArgs
  prepare := none
  source := none
  optimizeDuck := some (.middle fun _ prev args =>
    match args with
    | .grep pattern field =>
      if grepField alnum field then .ok (grepSql prev field, [.json (.str pattern)])
      else .error (.illegalField field)
    | _ => .error (noAttribute "field"))
  runDuck := none
  optimizeBash := none
  runBash := false

def sh : Operator ι Args where
  name := "sh"
  bounded := true
  caps _ := [.exec]
  parseArgs := stateless (shArgs "sh '<command>'" .sh)
  prepare := none
  source := none
  optimizeDuck := none
  runDuck := none
  optimizeBash := some fun _ args =>
    match args with
    | .sh command => .ok ["/bin/sh", "-c", command]
    | _ => .error (noAttribute "command")
  runBash := false

def jq : Operator ι Args where
  name := "jq"
  bounded := true
  caps _ := [.exec]
  parseArgs := stateless (shArgs "jq '<script>'" .jq)
  prepare := none
  source := none
  optimizeDuck := none
  runDuck := none
  optimizeBash := some fun _ args =>
    match args with
    | .jq script => .ok ["jq", "-c", script]
    | _ => .error (noAttribute "script")
  runBash := false

/-- The unbounded source.  It declares that it reads files; its bash cell runs `tail`. -/
def watch : Operator ι Args where
  name := "watch"
  bounded := false
  caps _ := [.fsRead]
  parseArgs := stateless watchArgs
  prepare := none
  source := some true
  optimizeDuck := none
  runDuck := none
  optimizeBash := some fun _ args =>
    match args with
    | .watch glob _ => .ok ["tail", "-F", "-n", "+1", glob]
    | _ => .error (noAttribute "glob")
  runBash := false

def ingest : Operator ι Args where
  name := "ingest"
  bounded := true
  caps _ := [.pure]
  parseArgs := stateless ingestArgs
  prepare := none
  source := some false
  optimizeDuck := none
  runDuck := none
  optimizeBash := none
  runBash := false

/-- `builtin_operators`. -/
def builtinOperators (alnum : Char → Bool) : List (Operator ι Args) :=
  [search, scan, grep alnum, sh, jq, watch, ingest]

/-- The registry of a store that is given these operators besides the built-in ones. -/
def registryOf (ops : List (Operator ι Args)) : Except PipeExc (Registry ι Args) :=
  ops.foldlM Registry.register .empty

theorem registryOf_ops {ops : List (Operator ι Args)} {r : Registry ι Args}
    (h : registryOf ops = .ok r) : r.ops = ops.map fun op => (pyLower op.name, op) := by
  have hfrom : ∀ (ops : List (Operator ι Args)) (r₀ : Registry ι Args),
      ops.foldlM Registry.register r₀ = .ok r →
        r.ops = r₀.ops ++ ops.map fun op => (pyLower op.name, op) := by
    intro ops
    induction ops with
    | nil =>
      intro r₀ hfold
      obtain rfl := Except.ok.inj hfold
      simp
    | cons op ops ih =>
      intro r₀ hfold
      rw [List.foldlM_cons] at hfold
      match hone : r₀.register op with
      | .error e =>
        rw [hone] at hfold
        cases hfold
      | .ok r₁ =>
        rw [hone] at hfold
        rw [ih r₁ hfold, Registry.register_ops hone]
        simp
  exact hfrom ops .empty h

end Builtins

end Seekbase
