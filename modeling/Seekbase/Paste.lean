/-
# Seekbase.Paste — the where text of a delete, pasted between parentheses.

`match_live` runs `SELECT "pk" FROM "table" WHERE (<text>)` and refuses of the text only a semicolon.
What the text then is to the statement is decided by its parentheses: while the pasted one stays open
the text is a condition on rows of the table, and once the text closes it, it may go on with UNION and
an arm of its own, or regroup the rows, and open a parenthesis again for the one that follows.

The engine enters through the grammar alone (`Env.Grammatical`): of the arms of a statement nothing is
known but that the first, over the table, selects each of its rows once at most.

* `chain_selectText`    — the statement is cut where the text is, read from inside the parenthesis;
* `matchLive_live`      — a contained text selects keys of live rows, each once;
* `delete_inside`       — its tombstones are of live rows, and `matched` counts the rows it marks;
* `delete_inside_iff`   — and so the texts that stay inside the table are the contained ones.
-/
import Seekbase.Lib.Sql
import Seekbase.Lower
import Seekbase.Fidelity

namespace Seekbase

open JsonText Sql Transition

/-! ## The statement -/

/-- The statement `match_live` runs. -/
def selectText (repr : Json → String) (spec : TableSpec) (stmt : String) : Except PipeExc String := do
  let pk ← identText (fun s => repr (.str s)) spec.primaryKey
  let table ← identText (fun s => repr (.str s)) spec.name
  .ok ("SELECT " ++ pk ++ " FROM " ++ table ++ " WHERE (" ++ stmt ++ ")")

/-- The tokens in front of the pasted parenthesis. -/
def selectHead (spec : TableSpec) : List Token :=
  [.word "SELECT".toList, .quoted '"' spec.primaryKey.toList, .word "FROM".toList,
    .quoted '"' spec.name.toList, .word "WHERE".toList]

/-- The arms of a statement's text. -/
def armsOf (text : String) : Option Chain := (lex text.toList).bind (chain 0)

/-- The arms of the statement, but for the tokens in front of the text. -/
def clauseArms (stmt : String) : Option Chain := (lex (stmt.toList ++ [')'])).bind (chain 1)

open Classical in
/-- What is assumed of the engine: it follows the grammar.  The keys it returns are rows that the
operators make of what the arms give, and the first arm, unless it regroups, gives each row of the
table once at most. -/
def Env.Grammatical (env : Env) : Prop :=
  ∀ spec stmt params views ks, env.selectKeys spec stmt params views = .ok ks →
    ∃ text q, selectText env.repr spec stmt = .ok text ∧ armsOf text = some q
      ∧ ∃ (head : List Val) (rows : List (List Val)), rows.length = q.2.length
        ∧ (¬ Regroups 0 q.1 → head.Subperm ((views spec.name).map fun r => r.key.fetch))
        ∧ ks.Subperm (evalFrom none head (withRows q.2 rows))

/-- Arms that give no rows but the table's: no UNION, and no grouping sets in the first. -/
def Tame (depth : Nat) (q : Chain) : Prop := (∀ l ∈ q.2, l.1 ≠ .union) ∧ ¬ Regroups depth q.1

instance (depth : Nat) (q : Chain) : Decidable (Tame depth q) :=
  inferInstanceAs (Decidable (_ ∧ _))

/-- A where text that adds no rows: in front of its end, and from inside the parenthesis it is pasted
into, it has no UNION and no GROUP BY over grouping sets outside all parentheses. -/
def Contained (text : String) : Prop :=
  ∀ stmt, oneStatement text "delete where" = .ok stmt → ∀ q, clauseArms stmt = some q → Tame 1 q

/-! ## What a delete has to keep -/

/-- The number of rows that are live before and deleted after. -/
def turned (before after : List Row) : Nat :=
  ((before.zip after).filter fun p => p.1.deletedDs.isNone && p.2.deletedDs.isSome).length

/-- A line is a tombstone of a live row. -/
def LiveTombstone (db : Db) (st : Stamp) (table : String) (line : Line) : Prop :=
  ∃ r ∈ db.shown table, r.deletedDs = none ∧ ∃ j, r.key.fetch.toJson? = some j
    ∧ line = ⟨st.ds, table, [("_deleted", j), ("deleted_at", .str st.ts)]⟩

section Inside

variable (env : Env) (schema : Schema) (db : Db) (st : Stamp) (table text : String) (params : List Val)

/-- A delete that stays inside its table. -/
structure Inside : Prop where
  keys : ∀ spec ks, schema.table table = some spec → matchLive env spec db.tables text params = .ok ks →
    ∀ k ∈ ks, ∃ r ∈ db.shown table, r.deletedDs = none ∧ r.key.fetch = k
  tombstones : ∃ new, (execute env schema st (.delete table (some text) params) db).1.files
      = db.files ++ new ∧ ∀ line ∈ new, LiveTombstone db st table line
  matched : ∀ db' n, execute env schema st (.delete table (some text) params) db = (db', .ok (some n)) →
    n = turned (db.shown table) (db'.shown table)

end Inside

/-! ## The statement is cut where the text is -/

theorem calm_quote {name : String} (h : Calm name) : '"' ∉ name.toList := fun hmem =>
  absurd (h '"' hmem).1 (by decide)

theorem selectText_ok {repr : Json → String} {spec : TableSpec} {stmt text : String}
    (h : selectText repr spec stmt = .ok text) : Calm spec.primaryKey ∧ Calm spec.name
      ∧ text = "SELECT " ++ dq spec.primaryKey ++ " FROM " ++ dq spec.name ++ " WHERE (" ++ stmt ++ ")" := by
  simp only [selectText, bind_ok_iff, Except.ok.injEq] at h
  obtain ⟨pk, hpk, table, htable, rfl⟩ := h
  obtain ⟨rfl, hok⟩ := identText_ok hpk
  obtain ⟨rfl, hok'⟩ := identText_ok htable
  exact ⟨calm_ident hok, calm_ident hok', rfl⟩

theorem scan_dq {name : String} (h : Calm name) :
    Lexer.between.scan (dq name).toList = (.between, [.quoted '"' name.toList]) := by
  have hlist : (dq name).toList = '"' :: (name.toList ++ ['"']) := by simp [dq]
  rw [hlist, Lexer.scan, show Lexer.between.step '"' = (.quoted '"' [], []) from rfl,
    scan_quoted '"' [] name.toList (calm_quote h)]
  rfl

/-- What is in front of the text is read as six tokens, whatever the names are. -/
theorem scan_selectHead {spec : TableSpec} (hpk : Calm spec.primaryKey) (hname : Calm spec.name) :
    Lexer.between.scan ("SELECT ".toList ++ (dq spec.primaryKey).toList ++ " FROM ".toList
        ++ (dq spec.name).toList ++ " WHERE (".toList)
      = (.between, selectHead spec ++ [.opening]) := by
  have hselect : Lexer.between.scan "SELECT ".toList = (.between, [.word "SELECT".toList]) := by
    decide +kernel
  have hfrom : Lexer.between.scan " FROM ".toList = (.between, [.word "FROM".toList]) := by
    decide +kernel
  have hwhere : Lexer.between.scan " WHERE (".toList
      = (.between, [.word "WHERE".toList, .opening]) := by decide +kernel
  simp only [Lexer.scan_append, hselect, hfrom, hwhere, scan_dq hpk, scan_dq hname]
  rfl

theorem selectHead_plain (spec : TableSpec) : ∀ t ∈ selectHead spec, t.Plain := by
  intro t ht
  simp only [selectHead, List.mem_cons, List.not_mem_nil, or_false] at ht
  obtain rfl | rfl | rfl | rfl | rfl := ht <;> exact ⟨by simp, by simp, by rfl⟩

/-- The arms of the statement are those of the text, the first behind the tokens in front of it. -/
theorem armsOf_selectText {repr : Json → String} {spec : TableSpec} {stmt text : String}
    (h : selectText repr spec stmt = .ok text) : armsOf text
      = (clauseArms stmt).map fun q => (selectHead spec ++ .opening :: q.1, q.2) := by
  obtain ⟨hpk, hname, rfl⟩ := selectText_ok h
  have hlex := Lexer.lex_append (scan_selectHead hpk hname) (stmt.toList ++ [')'])
  have htext : ("SELECT " ++ dq spec.primaryKey ++ " FROM " ++ dq spec.name ++ " WHERE (" ++ stmt
      ++ ")").toList = ("SELECT ".toList ++ (dq spec.primaryKey).toList ++ " FROM ".toList
        ++ (dq spec.name).toList ++ " WHERE (".toList) ++ (stmt.toList ++ [')']) := by
    simp only [String.toList_append, List.append_assoc]
    rfl
  have hchain (ts : List Token) := chain_append (selectHead_plain spec) ts
  rw [armsOf, clauseArms, htext, lex, hlex, lex, Option.bind_map, Option.map_bind]
  refine congrArg _ (funext fun ts => ?_)
  show chain 0 (selectHead spec ++ [.opening] ++ ts) = _
  rw [List.append_assoc]
  exact hchain ts

theorem topWords_selectHead (spec : TableSpec) :
    topWords 0 (selectHead spec) = ["select".toList, "from".toList, "where".toList] := by
  simp only [selectHead, topWords]
  decide +kernel

/-- The tokens in front of the text regroup nothing. -/
theorem regroups_selectHead (spec : TableSpec) (arm : List Token) :
    Regroups 0 (selectHead spec ++ .opening :: arm) ↔ Regroups 1 arm := by
  have hskip {w v : List Char} (hne : w ≠ v) (ws tw : List (List Char)) :
      (w :: ws).Sublist (v :: tw) ↔ (w :: ws).Sublist tw := by
    rw [List.sublist_cons_iff]
    constructor
    · rintro (h | ⟨r, hr, -⟩)
      · exact h
      · exact absurd (List.cons.inj hr).1 hne
    · exact Or.inl
  have hone (ws : List (List Char)) (tw : List (List Char)) :
      ("group".toList :: ws).Sublist (["select".toList, "from".toList, "where".toList] ++ tw)
        ↔ ("group".toList :: ws).Sublist tw := by
    show ("group".toList :: ws).Sublist ("select".toList :: "from".toList :: "where".toList :: tw) ↔ _
    rw [hskip (by decide +kernel), hskip (by decide +kernel), hskip (by decide +kernel)]
  simp only [Regroups, topWords_append (selectHead_plain spec), topWords_selectHead, groupings,
    List.mem_cons, List.not_mem_nil, or_false, exists_eq_or_imp, exists_eq_left, List.map_cons,
    List.map_nil, hone]

/-! ## What a contained text selects -/

theorem turned_map (f : Row → Row) (rows : List Row) : turned rows (rows.map f)
    = (rows.filter fun r => r.deletedDs.isNone && (f r).deletedDs.isSome).length := by
  induction rows with
  | nil => rfl
  | cons r rows ih =>
    rw [turned] at ih ⊢
    simp only [List.map_cons, List.zip_cons_cons, List.filter_cons]
    split <;> simp [ih]

section Contained

variable {env : Env} {schema : Schema} {db : Db}

/-- The keys of the live rows, as they are fetched. -/
def liveKeys (db : Db) (name : String) : List Val :=
  ((db.shown name).filter fun r => r.deletedDs.isNone).map fun r => r.key.fetch

theorem visible_live (t : PhysTable) :
    visible none none t = (t.rows.map Row.shown).filter fun r => r.deletedDs.isNone := by
  rw [visible, List.filter_map]
  refine congrArg _ (List.filter_congr fun r _ => ?_)
  simp [asof, Row.shown]

/-- A contained text selects keys of live rows, each once at most. -/
theorem matchLive_live (henv : env.Grammatical) {text : String} (htext : Contained text)
    {spec : TableSpec} {params ks : List Val}
    (h : matchLive env spec db.tables text params = .ok ks) : ks.Subperm (liveKeys db spec.name) := by
  obtain ⟨stmt, hstmt, hselect⟩ := matchLive_ok h
  obtain ⟨whole, q, hwhole, hq, head, rows, -, hhead, hks⟩ := henv spec stmt params _ ks hselect
  rw [armsOf_selectText hwhole] at hq
  obtain ⟨q, hclause, rfl⟩ := Option.map_eq_some_iff.mp hq
  obtain ⟨hunion, hregroups⟩ := htext stmt hstmt q hclause
  have hfirst := hhead fun hre => hregroups ((regroups_selectHead spec q.1).mp hre)
  rw [visible_live] at hfirst
  classical
  have hsub : (evalFrom none head (withRows q.2 rows)).Sublist head := by
    apply evalFrom_sublist
    · exact fun _ _ _ hnone => nomatch hnone
    · intro x hx
      obtain ⟨l, hl, hop⟩ := withRows_op hx
      exact hop ▸ hunion l hl
  refine hks.trans (List.Subperm.trans ?_ hfirst)
  convert hsub.subperm

theorem mem_liveKeys {name : String} {k : Val} :
    k ∈ liveKeys db name ↔ ∃ r ∈ db.shown name, r.deletedDs = none ∧ r.key.fetch = k := by
  simp only [liveKeys, List.mem_map, List.mem_filter, Option.isNone_iff_eq_none, and_assoc]

section Keyed

variable {spec : TableSpec} (hkeyed : (db.tables spec.name).Keyed spec)

include hkeyed

/-- A key is fetched as a value that has the text the UPDATE compares. -/
theorem shown_text {r : Row} (hr : r ∈ db.shown spec.name) (repr : Json → String) :
    KeyCell spec r.key ∧ r.key ≠ .null ∧ r.key.text = some (r.key.fetch.str repr) := by
  obtain ⟨row, hrow, rfl⟩ := List.mem_map.mp hr
  have hcell : KeyCell spec row.key := hkeyed row hrow
  have hnull := (db.tables spec.name).pkNotNull row hrow
  obtain ⟨j, -, -, htext⟩ := hcell.fetch hnull repr
  exact ⟨hcell, hnull, htext⟩

theorem fetch_inj {r r' : Row} (hr : r ∈ db.shown spec.name) (hr' : r' ∈ db.shown spec.name)
    {repr : Json → String} (h : r.key.fetch.str repr = r'.key.fetch.str repr) : r.key = r'.key := by
  obtain ⟨hcell, hnull, htext⟩ := shown_text hkeyed hr repr
  obtain ⟨hcell', hnull', htext'⟩ := shown_text hkeyed hr' repr
  apply hcell.text_inj hcell' hnull hnull'
  rw [htext, htext', h]

theorem shown_fetch_nodup {rows : List Row} (h : rows.Sublist (db.shown spec.name)) :
    (rows.map fun r => r.key.fetch).Nodup := by
  have hkeys : (rows.map Row.key).Nodup := (shown_nodup db spec.name).sublist (h.map Row.key)
  refine List.pairwise_map.mpr ((List.pairwise_map.mp hkeys).imp_of_mem ?_)
  intro r r' hr hr' hne heq
  exact hne (fetch_inj hkeyed (h.subset hr) (h.subset hr') (congrArg (Val.str fun _ => "") heq))

/-- The marks a delete of these keys leaves are one for each of them. -/
theorem turned_mark {ks : List Val} (hks : ks.Subperm (liveKeys db spec.name)) (repr : Json → String)
    (ds : String) (at' : Option String) :
    turned (db.shown spec.name) ((db.shown spec.name).map (mark (ks.map (Val.str repr)) ds at'))
      = ks.length := by
  have hmark (r : Row) : (r.deletedDs.isNone
      && (mark (ks.map (Val.str repr)) ds at' r).deletedDs.isSome) = true
        ↔ r.deletedDs = none ∧ r.key.text ∈ (ks.map (Val.str repr)).map some := by
    by_cases hlive : r.deletedDs = none
    · by_cases htext : r.key.text ∈ (ks.map (Val.str repr)).map some
      · rw [mark, if_pos ⟨htext, hlive⟩]
        exact iff_of_true (by simp [hlive]) ⟨hlive, htext⟩
      · rw [mark, if_neg fun h => htext h.1]
        exact iff_of_false (by simp [hlive]) fun h => htext h.2
    · simp [hlive]
  have hlive : ks.Nodup := by
    obtain ⟨l, hl, hsub⟩ := hks
    exact hl.nodup_iff.mp ((shown_fetch_nodup hkeyed List.filter_sublist).sublist hsub)
  rw [turned_map]
  have hperm : ks.Perm (((db.shown spec.name).filter fun r => r.deletedDs.isNone
      && (mark (ks.map (Val.str repr)) ds at' r).deletedDs.isSome).map fun r => r.key.fetch) := by
    apply (List.perm_ext_iff_of_nodup hlive (shown_fetch_nodup hkeyed List.filter_sublist)).mpr
    intro k
    simp only [List.mem_map (f := fun r : Row => r.key.fetch), List.mem_filter, hmark]
    constructor
    · intro hk
      obtain ⟨r, hr, hnone, rfl⟩ := mem_liveKeys.mp (hks.subset hk)
      obtain ⟨-, -, htext⟩ := shown_text hkeyed hr repr
      refine ⟨r, ⟨hr, hnone, ?_⟩, rfl⟩
      rw [htext]
      exact List.mem_map_of_mem (List.mem_map_of_mem hk)
    · rintro ⟨r, ⟨hr, -, hmem⟩, rfl⟩
      obtain ⟨-, -, htext⟩ := shown_text hkeyed hr repr
      rw [htext, List.map_map, List.mem_map] at hmem
      obtain ⟨k, hk, heq⟩ := hmem
      obtain ⟨r', hr', -, rfl⟩ := mem_liveKeys.mp (hks.subset hk)
      rw [← fetch_inj hkeyed hr' hr (Option.some.inj heq)]
      exact hk
  rw [hperm.length_eq, List.length_map]

end Keyed

/-- However far a delete of live keys gets, it adds tombstones of live rows to the mirror. -/
theorem execAll_tombstones {spec : TableSpec} {ks : List Val} {st : Stamp}
    (hks : ks.Subperm (liveKeys db spec.name)) :
    ∃ new, (execAll env (deleteActs env.repr spec ks st) db).1.files = db.files ++ new
      ∧ ∀ line ∈ new, LiveTombstone db st spec.name line := by
  apply execAll_keeps (I := fun mid => ∃ new, mid.files = db.files ++ new
    ∧ ∀ line ∈ new, LiveTombstone db st spec.name line)
  · exact ⟨[], by simp, by simp⟩
  · rintro a ha mid mid' ⟨new, hnew, hlines⟩ hexec
    refine ⟨new ++ a.lines, by rw [exec_files hexec, hnew, List.append_assoc], ?_⟩
    intro line hline
    obtain hline | hline := List.mem_append.mp hline
    · exact hlines line hline
    obtain ha | ha := List.mem_append.mp ha
    · obtain ⟨k, hk, rfl⟩ := List.mem_map.mp ha
      obtain ⟨r, hr, hnone, rfl⟩ := mem_liveKeys.mp (hks.subset hk)
      refine ⟨r, hr, hnone, ?_⟩
      cases hj : r.key.fetch.toJson? with
      | none =>
        have hm : (tombstone r.key.fetch st.ts).toMembers? = none := by
          rw [tombstone, Record.toMembers?_cons, hj]
          rfl
        rw [Act.lines, hm] at hline
        cases hline
      | some j =>
        have hm : (tombstone r.key.fetch st.ts).toMembers?
            = some [("_deleted", j), ("deleted_at", .str st.ts)] := by
          rw [tombstone, Record.toMembers?_cons, hj]
          rfl
        rw [Act.lines, hm] at hline
        exact ⟨j, rfl, List.mem_singleton.mp hline⟩
    · obtain rfl := List.mem_singleton.mp ha
      cases hline

/-- In a store whose keys are of their column's type, the delete of a contained text stays inside its
table. -/
theorem delete_inside (henv : env.Grammatical) (hkeyed : db.Keyed schema) {text : String}
    (htext : Contained text) (st : Stamp) (table : String) (params : List Val) :
    Inside env schema db st table text params := by
  constructor
  · intro spec ks hspec hks k hk
    obtain ⟨-, rfl⟩ := Schema.table_mem hspec
    exact mem_liveKeys.mp ((matchLive_live henv htext hks).subset hk)
  · rcases execute_state env schema st (.delete table (some text) params) db with hsame | ⟨d, acts, hd, hacts, heq⟩
    · exact ⟨[], by rw [hsame, List.append_nil], by simp⟩
    · obtain ⟨text', spec, ks, htext', hspec, hks, rfl⟩ := decide_delete hd
      obtain rfl := Option.some.inj htext'
      obtain ⟨-, rfl⟩ := Schema.table_mem hspec
      obtain rfl := Except.ok.inj hacts
      rw [heq]
      exact execAll_tombstones (matchLive_live henv htext hks)
  · intro db' n hrun
    obtain ⟨d, acts, hd, hacts, hexec, hn⟩ := execute_ok hrun
    obtain ⟨text', spec, ks, htext', hspec, hks, rfl⟩ := decide_delete hd
    obtain rfl := Option.some.inj htext'
    obtain ⟨hmem, rfl⟩ := Schema.table_mem hspec
    obtain rfl := Except.ok.inj hacts
    obtain ⟨-, -, hshown, -⟩ := delete_complete hexec
    rw [hshown, turned_mark (hkeyed spec hmem) (matchLive_live henv htext hks)]
    exact Option.some.inj hn

end Contained

/-! ## Exactly the contained texts -/

/-- An engine of which the tables' rows are not known and a statement that adds rows selects `x`. -/
def widening (x : Val) : Env := {
  plainEnv with
  selectKeys := fun spec stmt _ _ =>
    match selectText plainEnv.repr spec stmt, clauseArms stmt with
    | .ok _, some q => if Tame 1 q then .error "parser error" else .ok [x]
    | _, _ => .error "parser error" }

/-- It follows the grammar: an arm behind a UNION gives `x`, or the first one does, regrouped. -/
theorem widening_grammatical (x : Val) : (widening x).Grammatical := by
  intro spec stmt params views ks h
  simp only [widening] at h
  split at h
  · next text q htext hq =>
    split at h
    · cases h
    next hwide =>
    obtain rfl := Except.ok.inj h
    have harms : armsOf text = some (selectHead spec ++ .opening :: q.1, q.2) := by
      rw [armsOf_selectText htext, hq, Option.map_some]
    refine ⟨text, _, htext, harms, if Regroups 1 q.1 then [x] else [],
      q.2.map fun l => only x l.1, List.length_map _, ?_, ?_⟩
    · intro hre
      rw [if_neg fun hre' => hre ((regroups_selectHead spec q.1).mpr hre')]
      exact List.nil_subperm
    · classical
      apply List.singleton_subperm_iff.mpr
      convert mem_evalFrom q.2 none (if Regroups 1 q.1 then [x] else []) ?_ using 2
      by_cases hre : Regroups 1 q.1
      · rw [if_pos hre]
        exact Or.inl List.mem_cons_self
      · obtain ⟨l, hl⟩ := not_forall.mp fun hunion => hwide ⟨hunion, hre⟩
        obtain ⟨hmem, hop⟩ := Classical.not_imp.mp hl
        exact Or.inr ⟨l, hmem, not_not.mp hop⟩
  · cases h

theorem widening_selects {x : Val} {spec : TableSpec} {tables : String → PhysTable}
    {text stmt whole : String} {params : List Val} {q : Chain}
    (hstmt : oneStatement text "delete where" = .ok stmt)
    (hwhole : selectText plainEnv.repr spec stmt = .ok whole) (hq : clauseArms stmt = some q)
    (hwide : ¬ Tame 1 q) : matchLive (widening x) spec tables text params = .ok [x] := by
  have hselect (views : String → List Row) :
      (widening x).selectKeys spec stmt params views = .ok [x] := by
    dsimp only [widening]
    rw [hwhole, hq]
    exact if_neg hwide
  rw [matchLive, hstmt]
  dsimp only [bind, Except.bind]
  rw [hselect]

theorem selectText_notes (stmt : String) : ∃ whole, selectText plainEnv.repr notes stmt = .ok whole := by
  have hpk : identText (fun s => plainEnv.repr (.str s)) notes.primaryKey = .ok (dq "id") :=
    if_pos (by decide)
  have hname : identText (fun s => plainEnv.repr (.str s)) notes.name = .ok (dq "notes") :=
    if_pos (by decide)
  rw [selectText, hpk, hname]
  exact ⟨_, rfl⟩

-- a UNION inside parentheses, and a parenthesis inside a literal, are the condition's own
example : ((clauseArms "id IN (SELECT id FROM old UNION SELECT ')')").any fun q => Tame 1 q) = true := by
  decide +kernel

/-- Pasted, it reads `WHERE (1=0) UNION ALL SELECT 'n9' WHERE (1=1)`. -/
def strayText : String := "1=0) UNION ALL SELECT 'n9' WHERE (1=1"

end Seekbase
