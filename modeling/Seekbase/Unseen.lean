/-
# Seekbase.Unseen — what a read does not depend on.

Two states are compared by what a window SHOWS of them, the rows `visible` keeps without their search
columns; two cursors are any cursors at all.  A query whose texts take rows from nothing but what is
shown returns the same rows, or the same error, on both.

The guard looks at the type of a statement only, so a text may name what is not shown: a physical table,
a snapshot, a dataset, or the `_bridge` that an earlier plan has left.  Such a text does leak.

* `Shows`            — the relation between two states;
* `Source.Shown`     — a source behind which both states have the same, on a cursor with its views;
* `Cursor.Alike`     — two cursors in the middle of the same read;
* `executed`         — the texts a query has executed, which no store decides;
* `reads_unseen`     — the two-run theorem, over all histories of both cursors;
* `unseen_leaks`     — a hidden row is counted by name, and an earlier plan's output is read.
-/
import Seekbase.Authorize
import Seekbase.Cursor

namespace Seekbase

open Lines

section TwoRuns

variable (engine : Engine) {schema : ReadSchema}

/-! ## What both states show -/

/-- In this window both states show the same rows of every table of the schema. -/
def Shows (schema : ReadSchema) (w : Window) (a b : World) : Prop :=
  ∀ name ∈ schema.names, w.rows a.view name = w.rows b.view name

/-- A source behind which a read in this window has the same in both states; `bridged` says that a
shell stage of the same read has filled the bridge. -/
def Source.Shown (schema : ReadSchema) (w : Window) (a b : World) (bridged : Bool) : Source → Prop
  | .visible _ w' => w' = w
  | .relation name => name ∈ schema.names ∨ (bridged = true ∧ name = bridgeName)
    ∨ name ≠ bridgeName ∧ a.beyond schema name = b.beyond schema name

/-- Every text of the phases takes its rows from such sources. -/
def PhasesShown (schema : ReadSchema) (w : Window) (a b : World) : Bool → List PlanPhase → Prop
  | _, [] => True
  | bridged, .duck sql _ :: rest =>
    (∀ s ∈ engine.sources sql, s.Shown schema w a b bridged) ∧ PhasesShown schema w a b bridged rest
  | _, .bash _ :: rest => PhasesShown schema w a b true rest

/-- Cursors on which the same read is under way: the views are its own, and where it has filled the
bridge, so is that. -/
structure Cursor.Alike (w : Window) (bridged : Bool) (c c' : Cursor schema) : Prop where
  views : c.views = some w
  views' : c'.views = some w
  bridge : bridged = true → c.bridge.isSome = true ∧ c'.bridge = c.bridge

variable {engine} {w : Window} {a b : World} {c c' : Cursor schema} {bridged : Bool}

theorem installed_alike (c c' : Cursor schema) (w : Window) :
    (c.install w).Alike w false (c'.install w) where
  views := rfl
  views' := rfl
  bridge := fun h => absurd h (by simp)

/-! ## Sources -/

/-- The bridge is no table of the schema, so such a name is not the bridge's. -/
theorem content_table (hv : c.views = some w) {name : String} (hname : name ∈ schema.names)
    (world : World) : c.content world (.relation name) = some (.rows (w.rows world.view name)) := by
  have hnamed : c.named world name = some (.rows (w.rows world.view name)) := by
    simp only [Cursor.named, hv]
    exact if_pos hname
  simp only [Cursor.content]
  split
  · next jsonl hb =>
    have hne : name ≠ bridgeName := by
      intro heq
      apply c.apart (by rw [hb]; rfl)
      rw [← heq]
      exact hname
    rw [if_neg hne]
    exact hnamed
  · exact hnamed

theorem content_beyond (hv : c.views = some w) {name : String} (hname : name ∉ schema.names)
    (hne : name ≠ bridgeName) (world : World) :
    c.content world (.relation name) = world.beyond schema name := by
  have hnamed : c.named world name = world.beyond schema name := by
    simp only [Cursor.named, hv]
    exact if_neg hname
  simp only [Cursor.content]
  split
  · rw [if_neg hne]
    exact hnamed
  · exact hnamed

theorem content_bridge {jsonl : Bytes} (hb : c.bridge = some jsonl) (world : World) :
    c.content world (.relation bridgeName) = some (.bridge jsonl) := by
  simp only [Cursor.content, hb, if_pos]

theorem content_visible (hs : Shows schema w a b) (table : String) :
    c.content a (.visible table w) = c'.content b (.visible table w) := by
  simp only [Cursor.content]
  cases ht : schema.table table with
  | none => rfl
  | some spec =>
    have hname : spec.name ∈ schema.names := List.mem_map_of_mem (Schema.table_mem ht).1
    show some (Content.rows _) = some (Content.rows _)
    rw [hs spec.name hname]

/-- Such a source is the same to both runs. -/
theorem content_shown (hc : c.Alike w bridged c') (hs : Shows schema w a b) {s : Source}
    (h : s.Shown schema w a b bridged) : c.content a s = c'.content b s := by
  cases s with
  | visible table w' =>
    rcases h with rfl
    exact content_visible hs table
  | relation name =>
    by_cases hname : name ∈ schema.names
    · rw [content_table hc.views hname, content_table hc.views' hname, hs name hname]
    · rcases h with h | ⟨hbridged, rfl⟩ | ⟨hne, heq⟩
      · exact absurd h hname
      · rcases hc.bridge hbridged with ⟨hsome, hsame⟩
        rcases Option.isSome_iff_exists.mp hsome with ⟨jsonl, hjsonl⟩
        rw [content_bridge hjsonl, content_bridge (hsame.trans hjsonl)]
      · rw [content_beyond hc.views hname hne, content_beyond hc.views' hname hne, heq]

theorem fetch_shown (hc : c.Alike w bridged c') (hs : Shows schema w a b) {sql : String}
    (h : ∀ s ∈ engine.sources sql, s.Shown schema w a b bridged) (params : List Val) :
    fetch engine c a sql params = fetch engine c' b sql params := by
  have henv : engine.execute sql params (c.content a) = engine.execute sql params (c'.content b) :=
    engine.execute_local sql params _ _ fun s hsrc => content_shown hc hs (h s hsrc)
  simp only [fetch, henv]

/-! ## The two reads -/

variable (engine) in
/-- Loading the bridge fails on both cursors or leaves both with the same. -/
theorem loadBridge_alike (hc : c.Alike w bridged c') (jsonl : Bytes) :
    (∃ e, loadBridge engine c jsonl = .error e ∧ loadBridge engine c' jsonl = .error e)
      ∨ ∃ d d', loadBridge engine c jsonl = .ok d ∧ loadBridge engine c' jsonl = .ok d'
        ∧ d.Alike w true d' := by
  unfold loadBridge
  split
  · split
    · exact Or.inl ⟨_, rfl, rfl⟩
    · exact Or.inr ⟨_, _, rfl, rfl, hc.views, hc.views', fun _ => ⟨rfl, rfl⟩⟩
  · split
    · exact Or.inl ⟨_, rfl, rfl⟩
    · split
      · exact Or.inl ⟨_, rfl, rfl⟩
      · exact Or.inr ⟨_, _, rfl, rfl, hc.views, hc.views', fun _ => ⟨rfl, rfl⟩⟩

theorem runPhases_shown (hs : Shows schema w a b) (phases : List PlanPhase) {rows : List Record}
    (hc : c.Alike w bridged c') (h : PhasesShown engine schema w a b bridged phases) :
    (runPhases engine a c rows phases).1 = (runPhases engine b c' rows phases).1 := by
  induction phases generalizing c c' bridged rows with
  | nil => rfl
  | cons phase rest ih =>
    cases phase with
    | duck sql params =>
      rcases h with ⟨hsql, hrest⟩
      simp only [runPhases]
      cases guardRead engine notSelect notSelect sql with
      | error e => rfl
      | ok _ =>
        rw [fetch_shown hc hs hsql params]
        cases fetch engine c' b sql params with
        | error e => rfl
        | ok rows => exact ih hc hrest
    | bash argvs =>
      have hrest : PhasesShown engine schema w a b true rest := h
      simp only [runPhases]
      cases engine.bash argvs (rowsToJsonl rows) with
      | error why => rfl
      | ok out =>
        cases rest with
        | nil => rfl
        | cons next rest =>
          rcases loadBridge_alike engine hc out with ⟨e, he, he'⟩ | ⟨d, d', hd, hd', halike⟩
          · simp only [he, he']
          · simp only [hd, hd']
            exact ih halike hrest

theorem runQuery_shown (hs : Shows schema w a b) {sql : String}
    (h : ∀ s ∈ engine.sources sql, s.Shown schema w a b false) (c c' : Cursor schema)
    (params : List Val) :
    (runQuery engine c a w sql params).1 = (runQuery engine c' b w sql params).1 := by
  unfold runQuery
  cases w.check engine.repr with
  | error e => rfl
  | ok _ =>
    cases guardRead engine "query must be a single read statement" notSelect sql with
    | error e => rfl
    | ok _ => exact fetch_shown (installed_alike c c' w) hs h params

theorem runPlan_shown (hs : Shows schema w a b) {phases : List PlanPhase}
    (h : PhasesShown engine schema w a b false phases) (c c' : Cursor schema) :
    (runPlan engine c a w phases).1 = (runPlan engine c' b w phases).1 := by
  unfold runPlan
  cases w.check engine.repr with
  | error e => rfl
  | ok _ => exact runPhases_shown hs phases (installed_alike c c' w) h

end TwoRuns

/-! ## Whole queries -/

section Queries

variable {ι α ρ : Type} (reg : Registry ι α) (p : Policy) (ctx : OperatorCtx) (h : Held ι)
  (text : List Char) (params : List Val)

/-- What a query text does besides computing, which is the same on every store. -/
def executed : List (Event α) :=
  (query reg p ctx (⟨fun _ _ => .ok (), fun _ => .ok ()⟩ : Reads Unit) h text params).events

/-- Two stores give the same answer to what an event asks of them. -/
def Event.SameOn (s s' : Reads ρ) : Event α → Prop
  | .prepare _ _ => True
  | .query sql params => s.runQuery sql params = s'.runQuery sql params
  | .plan phases => s.runPlan phases = s'.runPlan phases

variable {reg p ctx h text params}

theorem runPlanned_same {s s' : Reads ρ} (o : Outcome ι α (List PlanPhase))
    (hs : ∀ e ∈ (runPlanned (⟨fun _ _ => .ok (), fun _ => .ok ()⟩ : Reads Unit) o).events,
      e.SameOn s s') : runPlanned s o = runPlanned s' o := by
  match o with
  | ⟨.error e, h, events⟩ => rfl
  | ⟨.ok phases, h, events⟩ =>
    have hplan : s.runPlan phases = s'.runPlan phases :=
      hs (.plan phases) (List.mem_append_right _ List.mem_cons_self)
    simp only [runPlanned, hplan]

/-- A single plain statement goes to the store as it is. -/
theorem query_plain (s : Reads ρ) {segment : List Char}
    (hsplit : splitPipeline (strip text) = some [segment]) (hplain : classify reg segment = none) :
    query reg p ctx s h text params
      = ⟨s.runQuery (String.ofList segment) params, h, [.query (String.ofList segment) params]⟩ := by
  have htext : strip text ≠ [] := by
    intro hnil
    have hnone : splitPipeline [] = none := by decide
    rw [hnil, hnone] at hsplit
    cases hsplit
  unfold query
  simp only [if_neg htext, hsplit, List.map_cons, List.map_nil, hplain]

/-- A query is the same on stores that answer alike what it asks. -/
theorem query_same {s s' : Reads ρ} (hs : ∀ e ∈ executed reg p ctx h text params, e.SameOn s s') :
    query reg p ctx s h text params = query reg p ctx s' h text params := by
  by_cases hempty : strip text = []
  · simp only [query, hempty, if_pos]
  · cases hsplit : splitPipeline (strip text) with
    | none => simp only [query, if_neg hempty, hsplit]
    | some segments =>
      by_cases hplain : ∃ segment, segments = [segment] ∧ classify reg segment = none
      · rcases hplain with ⟨segment, rfl, hplain⟩
        rw [executed, query_plain _ hsplit hplain] at hs
        have hquery : s.runQuery (String.ofList segment) params
            = s'.runQuery (String.ofList segment) params :=
          hs (.query (String.ofList segment) params) List.mem_cons_self
        rw [query_plain s hsplit hplain, query_plain s' hsplit hplain, hquery]
      · have hno : ∀ segment, segments = [segment] → classify reg segment ≠ none :=
          fun segment hone hcl => hplain ⟨segment, hone, hcl⟩
        rw [executed, query_compiled _ params hsplit hno] at hs
        rw [query_compiled s params hsplit hno, query_compiled s' params hsplit hno]
        exact runPlanned_same _ hs

variable (engine : Engine) {schema : ReadSchema} {w : Window} {a b : World}

/-- Every text the event hands to the store takes its rows from what is shown. -/
def Event.Shown (schema : ReadSchema) (w : Window) (a b : World) : Event α → Prop
  | .prepare _ _ => True
  | .query sql _ => ∀ s ∈ engine.sources sql, s.Shown schema w a b false
  | .plan phases => PhasesShown engine schema w a b false phases

variable {engine}

/-- In any two states that show the same rows in the window, and on any two cursors whatever reads have
borrowed them before, a query whose texts take their rows from what is shown has the same outcome. -/
theorem reads_unseen (hs : Shows schema w a b)
    (hshown : ∀ e ∈ executed reg p ctx h text params, e.Shown engine schema w a b)
    (history history' : List (World × Window × PastRead)) :
    query reg p ctx (reads engine (Cursor.after engine history : Cursor schema) a w) h text params
      = query reg p ctx (reads engine (Cursor.after engine history' : Cursor schema) b w) h text
        params := by
  apply query_same
  intro e he
  have hevent := hshown e he
  cases e with
  | prepare op args => trivial
  | query sql params => exact runQuery_shown hs hevent _ _ params
  | plan phases => exact runPlan_shown hs hevent _ _

end Queries

/-! ## An engine that counts -/

def countText : String := "SELECT count(*) AS c FROM "

/-- The relation a text counts the rows of. -/
def countedName (sql : String) : Option String :=
  if countText.toList <+: sql.toList then some (String.ofList (sql.toList.drop countText.length))
  else none

def countRows : Option Content → Except String Rows
  | some (.rows rows) => .ok (["c"], [[.json (.int rows.length)]])
  | some (.bridge jsonl) => .ok (["c"], [[.json (.int (splitLines jsonl).length)]])
  | _ => .error "Catalog Error: Table does not exist!"

/-- It counts the rows of one relation, reads any text as JSON, and its shell is `cat`. -/
def countEngine : Engine where
  repr s := "'" ++ s ++ "'"
  statements sql := .ok [(countedName sql).isSome]
  sources sql := ((countedName sql).map .relation).toList
  execute sql _ env :=
    match countedName sql with
    | some name => countRows (env (.relation name))
    | none => .error "Parser Error"
  execute_local := by
    intro sql params env env' h
    cases hname : countedName sql with
    | none => rfl
    | some name =>
      have hsame : env (.relation name) = env' (.relation name) := by
        apply h
        simp [hname]
      simp only [hsame]
  readJson _ := .ok ()
  conflict := "Catalog Error: Existing object is of type View"
  jsonWhy _ := "Expecting value"
  bash _ input := .ok input

def notesReads : ReadSchema := { notesSchema with apart := by decide }

def nothingStored : World := ⟨⟨fun _ => .empty, fun _ => [], fun _ => []⟩, fun _ => none⟩

/-- A note that was deleted. -/
def deletedNote : PhysTable where
  rows := [⟨.varchar "n1", [.varchar "n1", .varchar "v1"], some "20260101", some "t1",
    some "20260102", some "t2", []⟩]
  pkUnique := by decide
  pkNotNull := by decide

def noteDeleted : World :=
  ⟨⟨fun name => if name = "notes" then deletedNote else .empty, fun _ => [], fun _ => []⟩,
    fun _ => none⟩

def now : Window := ⟨none, none⟩

/-- A plan that has filled the bridge. -/
def throughShell : World × Window × PastRead :=
  (nothingStored, now, .plan [.duck (countText ++ "notes") [], .bash [["cat"]],
    .duck (countText ++ "_bridge") []])

/-- What a text answers about the notes. -/
def ask (history : List (World × Window × PastRead)) (world : World) (text : String) :
    Except PipeExc (List Record) :=
  (query builtins readOnly notesCtx
    (reads countEngine (Cursor.after countEngine history : Cursor notesReads) world now)
    (fun _ => ()) text.toList []).result

def counted : Except PipeExc (List Record) → Option Int
  | .ok [[("c", .json (.int n))]] => some n
  | _ => none

theorem deleted_shows : Shows notesReads now nothingStored noteDeleted := by
  intro name hname
  rw [List.mem_singleton.mp hname]
  decide

/-- A count of the notes is the same with a deleted note and behind a plan that has filled the bridge. -/
theorem reads_unseen_count : counted (ask [] nothingStored (countText ++ "notes")) = some 0
    ∧ ask [] nothingStored (countText ++ "notes") = ask [throughShell] noteDeleted (countText ++ "notes")
    := by
  have htables : ∀ e ∈ executed builtins readOnly notesCtx (fun _ => ())
      (countText ++ "notes").toList [], e.Shown countEngine notesReads now nothingStored noteDeleted := by
    have hsplit : splitPipeline (strip (countText ++ "notes").toList)
        = some [(countText ++ "notes").toList] := by decide +kernel
    have hplain : (classify builtins (countText ++ "notes").toList).isNone = true := by decide +kernel
    have hsources : countEngine.sources (countText ++ "notes") = [.relation "notes"] := by
      decide +kernel
    rw [executed, query_plain _ hsplit (Option.isNone_iff_eq_none.mp hplain)]
    intro e he
    rw [List.mem_singleton.mp he]
    intro s hs
    rw [String.ofList_toList, hsources] at hs
    rw [List.mem_singleton.mp hs]
    exact Or.inl List.mem_cons_self
  refine ⟨by decide +kernel, ?_⟩
  exact congrArg Outcome.result (reads_unseen deleted_shows htables [] [throughShell])

/-- A text that names a physical table counts the deleted note; one that names the bridge reads what an
earlier plan on the cursor has left. -/
theorem unseen_leaks :
    (∃ a b text, Shows notesReads now a b ∧ ask [] a text ≠ ask [] b text)
      ∧ ∃ world text, ask [] world text ≠ ask [throughShell] world text := by
  have hidden : counted (ask [] nothingStored (countText ++ "_sb_notes")) = some 0
      ∧ counted (ask [] noteDeleted (countText ++ "_sb_notes")) = some 1 := by decide +kernel
  have left : counted (ask [] nothingStored (countText ++ "_bridge")) = none
      ∧ counted (ask [throughShell] nothingStored (countText ++ "_bridge")) = some 1 := by
    decide +kernel
  constructor
  · refine ⟨nothingStored, noteDeleted, countText ++ "_sb_notes", deleted_shows, fun heq => ?_⟩
    have hcount := congrArg counted heq
    rw [hidden.1, hidden.2] at hcount
    cases hcount
  · refine ⟨nothingStored, countText ++ "_bridge", fun heq => ?_⟩
    have hcount := congrArg counted heq
    rw [left.1, left.2] at hcount
    cases hcount

end Seekbase
