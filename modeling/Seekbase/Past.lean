/-
# Seekbase.Past — what a day showed when it ended is what it shows ever after.

A table's view as of a day is a predicate on the rows of NOW.  That it shows the past has two halves.
Up to the day nothing is later than it, so the view of the day and the live view are the same; after
it, what an act inserts is created too late to be seen and what it marks is marked too late to be
missed.

Both are facts about single acts, so they hold in the middle of operations, across failures and across
crashes.  The first half needs of a rebuild only that it appends nothing.  The second cannot have one
running: between its clear and its last insert the past is not there.

* `LinesUntil`  — no line is in a partition after the day;
* `now_is_asof` — while the clock has not passed the day its view is the live one;
* `exec_past`   — an act of a later day leaves the view of the day alone;
* `asof_is_then` — the two halves of one run.
-/
import Seekbase.Midnight
import Seekbase.TimeMachine

namespace Seekbase

open JsonText Transition

/-! ## Up to a day -/

section Until

variable {env : Env} {schema : Schema} {day : String}

/-- The stamps of the run are of the day or before it. -/
def Until (day : String) (_ : System) : Label → Prop
  | .plan st => st.ds ≤ day
  | _ => True

instance Until.decidable (day : String) (s : System) : (l : Label) → Decidable (Until day s l)
  | .plan st => inferInstanceAs (Decidable (st.ds ≤ day))
  | .take _ | .decide | .write | .fault | .finish | .refresh | .refreshFault | .settle | .rebuild _
  | .read _ | .replay _ | .stop _ | .crash => isTrue trivial

def LinesUntil (day : String) (files : Files) : Prop := ∀ l ∈ files, l.ds ≤ day

/-- What an act appends is in a partition up to the day. -/
def Act.Until (day : String) (a : Act) : Prop := ∀ l ∈ a.lines, l.ds ≤ day

/-- Neither the mirror nor an act that is still to come goes beyond the day. -/
structure System.Until (day : String) (s : System) : Prop where
  lines : LinesUntil day s.db.files
  worker : ∀ fts done todo, s.worker = .acting fts done todo → ∀ a ∈ todo, a.Until day
  rebuilds : ∀ snaps todo, .acting snaps todo ∈ s.rebuilds → ∀ a ∈ todo, a.lines = []

theorem exec_until {a : Act} {db db' : Db} (hdb : LinesUntil day db.files) (ha : a.Until day)
    (h : exec env a db = .ok db') : LinesUntil day db'.files := by
  intro l hl
  rw [exec_files h] at hl
  exact (List.mem_append.mp hl).elim (hdb l) (ha l)

theorem plan_until {st : Stamp} (hst : st.ds ≤ day) {d : Decision} {acts : List Act}
    (hplan : plan env st d = .ok acts) : ∀ a ∈ acts, a.Until day := by
  have happend : ∀ table line, (Act.append st.ds table line).Until day := by
    intro table line l hl
    obtain ⟨m, -, rfl⟩ := Option.map_eq_some_iff.mp (Option.mem_toList.mp hl)
    exact hst
  have hnone : ∀ a : Act, a.lines = [] → a.Until day := by
    intro a ha l hl
    rw [ha] at hl
    cases hl
  intro a ha
  cases d with
  | records spec rs =>
    rcases plan_records hplan with rfl | ⟨emb, -, rfl⟩
    · cases ha
    · rcases mem_insertActs ha with ⟨r, -, rfl⟩ | ⟨i, r, -, rfl⟩ | rfl
      · exact happend _ _
      · exact hnone _ rfl
      · exact hnone _ rfl
  | keys spec ks =>
    obtain rfl := Except.ok.inj hplan
    rcases mem_deleteActs ha with ⟨k, -, rfl⟩ | rfl
    · exact happend _ _
    · exact hnone _ rfl

/-- What a step leaves of the tasks that replay. -/
theorem setRebuild_until {s : System} {i : Nat} {r : Rebuild} (h : s.Until day)
    (hr : ∀ snaps todo, r = .acting snaps todo → ∀ a ∈ todo, a.lines = []) :
    (s.setRebuild i r).Until day where
  lines := h.lines
  worker := h.worker
  rebuilds := by
    intro snaps todo hmem
    rcases List.mem_or_eq_of_mem_set hmem with hold | heq
    · exact h.rebuilds snaps todo hold
    · exact hr snaps todo heq.symm

theorem replay_until {s t : System} {i : Nat} {r : Rebuild} (h : s.Until day)
    (hi : s.rebuilds[i]? = some r) (hs : Replays env schema s i r t) : t.Until day := by
  have hmem := List.mem_of_getElem? hi
  cases hs with
  | @start now snaps =>
    apply setRebuild_until h
    rintro _ _ ⟨⟩ a ha
    exact replayActs_lines ha
  | @act snaps a todo db he =>
    have hlines := h.rebuilds snaps (a :: todo) hmem
    have hdb : ({ s with db := db } : System).Until day := by
      refine ⟨exec_until h.lines (fun l hl => ?_) he, h.worker, h.rebuilds⟩
      rw [hlines a List.mem_cons_self] at hl
      cases hl
    apply setRebuild_until hdb
    rintro _ _ ⟨⟩ b hb
    exact hlines b (List.mem_cons_of_mem a hb)
  | refuse | finish =>
    apply setRebuild_until h
    rintro _ _ ⟨⟩

theorem background_until {s t : System} {l : Label} (h : s.Until day) (hl : l.Background)
    (hs : step env schema s l = some t) : t.Until day := by
  obtain ⟨now, -, rfl⟩ | ⟨i, now, spec, todo, snaps, -, hi, rfl⟩ | ⟨i, -, rfl⟩ :=
    background_cases hl hs
  · refine ⟨h.lines, h.worker, fun snaps todo hmem => ?_⟩
    rcases List.mem_append.mp hmem with hmem | hmem
    · exact h.rebuilds snaps todo hmem
    · cases List.mem_singleton.mp hmem
  · apply setRebuild_until h
    intro snaps' todo' heq
    simp only [Rebuild.read] at heq
    split at heq <;> cases heq
  · apply setRebuild_until h
    rintro _ _ ⟨⟩

theorem step_until {s t : System} {l : Label} (h : s.Until day) (hg : Seekbase.Until day s l)
    (hs : step env schema s l = some t) : t.Until day := by
  obtain ⟨i, r, rfl, hi, hr⟩ | hm := step_cases hs
  · exact replay_until h hi hr
  · cases hm with
    | take => exact ⟨h.lines, by rintro _ _ _ ⟨⟩, h.rebuilds⟩
    | @decide op hw =>
      refine ⟨h.lines, fun fts done todo heq => ?_, h.rebuilds⟩
      simp only [Worker.decide] at heq
      split at heq <;> cases heq
    | @plan st d hw =>
      refine ⟨h.lines, fun fts done todo heq => ?_, h.rebuilds⟩
      simp only [Worker.plan] at heq
      split at heq
      · next acts hacts =>
        cases heq
        exact plan_until hg hacts
      · cases heq
    | @write fts done todo a db hw he =>
      have hacts := h.worker fts done (a :: todo) hw
      refine ⟨exec_until h.lines (hacts a List.mem_cons_self) he, ?_, h.rebuilds⟩
      rintro _ _ _ ⟨⟩ b hb
      exact hacts b (List.mem_cons_of_mem a hb)
    | refuse | fault | finish => exact ⟨h.lines, by rintro _ _ _ ⟨⟩, h.rebuilds⟩
    | @refresh spec rest db hw ht he =>
      refine ⟨exec_until h.lines (fun l hl => by cases hl) he, h.worker, h.rebuilds⟩
    | skip | settle => exact ⟨h.lines, h.worker, h.rebuilds⟩
    | background hl => exact background_until h hl hs
    | crash => exact ⟨h.lines, by rintro _ _ _ ⟨⟩, by intro _ _ hmem; cases hmem⟩

theorem run_until {labels : List Label} {s : System}
    (hup : Guarded (step env schema) (Seekbase.Until day) System.init labels)
    (hrun : run (step env schema) System.init labels = some s) : s.Until day := by
  refine run_guarded (fun s l t h hg hs => step_until h hg hs) ?_ hup hrun
  exact ⟨by rintro l ⟨⟩, by rintro _ _ _ ⟨⟩, by rintro _ _ ⟨⟩⟩

theorem asof_of_until {dsStart : Option String} {row : Row} (hds : ∃ ds, row.ds = some ds ∧ ds ≤ day)
    (hdel : ∀ d, row.deletedDs = some d → d ≤ day) :
    asof dsStart (some day) row = asof dsStart none row := by
  obtain ⟨ds, hds, hle⟩ := hds
  rw [Bool.eq_iff_iff, asof_some_iff, asof_none_iff]
  constructor
  · rintro ⟨⟨d, hd, -, hstart⟩, hmark⟩
    refine ⟨?_, fun x hx => ⟨d, hd, hstart x hx⟩⟩
    rcases hmark with hmark | ⟨m, hm, hlt⟩
    · exact hmark
    · exact absurd (hdel m hm) (not_le.mpr hlt)
  · rintro ⟨hlive, hstart⟩
    refine ⟨⟨ds, hds, hle, fun x hx => ?_⟩, Or.inl hlive⟩
    obtain ⟨d, hd, hxd⟩ := hstart x hx
    rw [hds] at hd
    rwa [Option.some.inj hd]

/-- In every run whose stamps are of the day or before it, with rebuilds, failures and crashes anywhere
in it, the view of the day is the live view. -/
theorem now_is_asof (hdel : ∀ spec ∈ schema.tables, "_deleted" ∉ spec.columnNames)
    {labels : List Label} {s : System}
    (hrun : run (step env schema) System.init labels = some s)
    (hup : Guarded (step env schema) (Seekbase.Until day) System.init labels)
    {spec : TableSpec} (hspec : spec ∈ schema.tables) (dsStart : Option String) :
    visible dsStart (some day) (s.db.tables spec.name) = visible dsStart none (s.db.tables spec.name) := by
  have huntil := run_until hup hrun
  rw [visible, visible]
  congr 1
  apply List.filter_congr
  intro row hrow
  obtain ⟨hput, hmark⟩ := file_ge_duckdb hdel hrun hspec hrow
  apply asof_of_until
  · obtain ⟨ds, ts, m, hl, -, -, hds, -⟩ := hput.columns
    exact ⟨ds, hds, huntil.lines _ hl⟩
  · intro d hd
    obtain ⟨key, -, k, ts, m, -, hl, -, -⟩ := hmark d hd
    exact huntil.lines _ hl

end Until

/-! ## After it -/

section Later

variable {env : Env} {schema : Schema} {day : String}

/-- What an act writes is of a later day. -/
def Act.After (day : String) : Act → Prop
  | .insert _ _ _ ds _ => ∃ d, ds = strVal d ∧ day < d
  | .softDelete _ _ ds _ => day < ds
  | .clear _ => False
  | _ => True

/-- What the worker still has to do is of a later day. -/
def Worker.After (day : String) : Worker → Prop
  | .acting _ _ todo => ∀ a ∈ todo, a.After day
  | _ => True

/-- The stamps of the run are later than the day, and nothing is replayed. -/
def Later (day : String) (_ : System) : Label → Prop
  | .plan st => day < st.ds
  | .replay _ => False
  | _ => True

instance Later.decidable (day : String) (s : System) : (l : Label) → Decidable (Later day s l)
  | .plan st => inferInstanceAs (Decidable (day < st.ds))
  | .replay _ => isFalse id
  | .take _ | .decide | .write | .fault | .finish | .refresh | .refreshFault | .settle | .rebuild _
  | .read _ | .stop _ | .crash => isTrue trivial

theorem plan_after {st : Stamp} (hst : day < st.ds) {d : Decision} {acts : List Act}
    (hplan : plan env st d = .ok acts) : ∀ a ∈ acts, a.After day := by
  intro a ha
  cases d with
  | records spec rs =>
    rcases plan_records hplan with rfl | ⟨emb, -, rfl⟩
    · cases ha
    · rcases mem_insertActs ha with ⟨r, -, rfl⟩ | ⟨i, r, -, rfl⟩ | rfl
      · trivial
      · exact ⟨st.ds, rfl, hst⟩
      · trivial
  | keys spec ks =>
    obtain rfl := Except.ok.inj hplan
    rcases mem_deleteActs ha with ⟨k, -, rfl⟩ | rfl
    · trivial
    · exact hst

/-- A mark of a later day neither hides a row from the day nor shows one. -/
theorem asof_mark {keys : List String} {ds : String} (hlt : day < ds) (at' dsStart : Option String)
    (r : Row) : asof dsStart (some day) (mark keys ds at' r) = asof dsStart (some day) r := by
  unfold mark
  split
  · next h =>
    rw [Bool.eq_iff_iff, asof_some_iff, asof_some_iff]
    refine and_congr_right fun _ => ⟨fun _ => Or.inl h.2, fun _ => Or.inr ⟨ds, rfl, hlt⟩⟩
  · rfl

theorem mark_unmarked (keys : List String) (ds : String) (at' : Option String) (r : Row) :
    (mark keys ds at' r).unmarked = r.unmarked := by
  unfold mark
  split <;> rfl

/-- An act of a later day leaves the view of the day as it is, up to the marks it shows. -/
theorem exec_past {a : Act} {db db' : Db} (ha : a.After day) (h : exec env a db = .ok db')
    (name : String) (dsStart : Option String) :
    asofView db' name dsStart day = asofView db name dsStart day := by
  rw [asofView, asofView, visible_eq, visible_eq, exec_shown h]
  cases a with
  | insert spec r search ds ca =>
    obtain ⟨d, rfl, hlt⟩ := ha
    simp only [Act.effect]
    split
    · rw [List.filter_append]
      have hnone : (env.stored spec r (strVal d) ca).toOption.toList.filter
          (asof dsStart (some day)) = [] := by
        rw [List.filter_eq_nil_iff]
        intro row hrow hasof
        cases hstored : env.stored spec r (strVal d) ca with
        | error e =>
          rw [hstored] at hrow
          cases hrow
        | ok base =>
          rw [hstored] at hrow
          obtain rfl := List.mem_singleton.mp hrow
          obtain ⟨_, _, x, _, -, -, hx, -, rfl⟩ := stored_ok_iff.mp hstored
          rw [env.bindText_str] at hx
          obtain rfl := Option.some.inj hx
          obtain ⟨⟨ds, hds, hle, -⟩, -⟩ := asof_some_iff.mp hasof
          obtain rfl := Option.some.inj hds
          exact absurd hlt (not_lt.mpr hle)
      rw [hnone, List.append_nil]
    · rfl
  | softDelete spec keys ds at' =>
    simp only [Act.effect]
    split
    · split
      · next x hx heq =>
        rw [List.filter_map, List.map_map]
        have hsame : (asof dsStart (some day) ∘ mark keys ds x) = asof dsStart (some day) :=
          funext fun r => asof_mark ha x dsStart r
        have hrows : (Row.unmarked ∘ mark keys ds x) = Row.unmarked :=
          funext fun r => mark_unmarked keys ds x r
        rw [hsame, hrows]
      · rfl
    · rfl
  | clear spec => exact ha.elim
  | append | rebuildFts | indexAppend | indexOverwrite => rfl

theorem step_past {s t : System} {l : Label} (h : s.worker.After day) (hg : Later day s l)
    (hs : step env schema s l = some t) :
    t.worker.After day ∧ ∀ name dsStart,
      asofView t.db name dsStart day = asofView s.db name dsStart day := by
  have hm : Moves env schema s l t := by
    apply step_moves _ hs
    rintro i rfl
    exact hg
  cases hm with
  | take | refuse | fault | finish | crash => exact ⟨trivial, fun _ _ => rfl⟩
  | @decide op hw =>
    refine ⟨?_, fun _ _ => rfl⟩
    show (Worker.decide env schema s.db op).After day
    unfold Worker.decide
    split <;> trivial
  | @plan st d hw =>
    refine ⟨?_, fun _ _ => rfl⟩
    show (Worker.plan env st d).After day
    unfold Worker.plan
    split
    · next acts hacts => exact plan_after hg hacts
    · trivial
  | @write fts done todo a db hw he =>
    rw [hw] at h
    exact ⟨fun b hb => h b (List.mem_cons_of_mem a hb), exec_past (h a List.mem_cons_self) he⟩
  | @refresh spec rest db hw ht he =>
    have hfts : (Act.rebuildFts spec).After day := trivial
    exact ⟨h, exec_past hfts he⟩
  | skip | settle | background => exact ⟨h, fun _ _ => rfl⟩

/-- Cut a run where the day ends, with rebuilds, failures and crashes anywhere before it and no rebuild
replaying after it: whatever comes after, in whatever order and however it fails, each table's view of
the day selects the rows the table showed then. -/
theorem asof_is_then (hdel : ∀ spec ∈ schema.tables, "_deleted" ∉ spec.columnNames)
    {before after : List Label} {s t : System}
    (hs : run (step env schema) System.init before = some s)
    (hup : Guarded (step env schema) (Seekbase.Until day) System.init before)
    (ht : run (step env schema) s after = some t)
    (hlater : Guarded (step env schema) (Later day) s after) (hworker : s.worker.After day)
    {spec : TableSpec} (hspec : spec ∈ schema.tables) (dsStart : Option String) :
    asofView t.db spec.name dsStart day
      = (visible dsStart none (s.db.tables spec.name)).map Row.unmarked := by
  have hpast : t.worker.After day ∧ ∀ name start,
      asofView t.db name start day = asofView s.db name start day := by
    refine run_guarded (I := fun u => u.worker.After day ∧ ∀ name start,
      asofView u.db name start day = asofView s.db name start day) ?_ ⟨hworker, fun _ _ => rfl⟩
      hlater ht
    rintro u l v ⟨hu, hsame⟩ hg h
    obtain ⟨hv, hstep⟩ := step_past hu hg h
    exact ⟨hv, fun name start => (hstep name start).trans (hsame name start)⟩
  rw [hpast.2, asofView, now_is_asof hdel hs hup hspec]

end Later

/-! ## Two days of notes -/

/-- A note that comes on the second, with a rebuild around it that a crash ends. -/
def firstDay : List Label :=
  opLabels ⟨"20260102", "t1", t1_ne⟩ (.insert "notes" [[("id", strVal "n1")]] false) 2
    ++ [.rebuild fun _ _ => "t2", .read 0, .replay 0, .replay 0, .replay 0, .crash]

/-- On the third it is deleted, and another comes that the disk fails. -/
def secondDay : List Label :=
  opLabels ⟨"20260103", "t2", t2_ne⟩ (.delete "notes" (some "id = ?") [strVal "n1"]) 2
    ++ [.take (.insert "notes" [[("id", strVal "n2")]] false), .decide,
      .plan ⟨"20260103", "t3", t3_ne⟩, .write, .fault]

theorem asof_is_then_notes : ∃ s t, run (step plainEnv notesSchema) System.init firstDay = some s
    ∧ run (step plainEnv notesSchema) s secondDay = some t
    ∧ asofView t.db notes.name none "20260102"
      = (visible none none (s.db.tables notes.name)).map Row.unmarked
    ∧ (s.db.tables notes.name).rows.length = 1 := by
  have hlen : (run (step plainEnv notesSchema) System.init firstDay).any (fun s =>
      (s.db.tables notes.name).rows.length == 1 && decide (s.worker = .idle)
        && (run (step plainEnv notesSchema) s secondDay).isSome) = true := by
    decide +kernel
  obtain ⟨s, hs, hat⟩ := (Option.any_eq_true _ _).mp hlen
  simp only [Bool.and_eq_true, beq_iff_eq, decide_eq_true_eq] at hat
  obtain ⟨⟨hone, hidle⟩, hsome⟩ := hat
  obtain ⟨t, ht⟩ := Option.isSome_iff_exists.mp hsome
  refine ⟨s, t, hs, ht, ?_, hone⟩
  have hup : ∀ l ∈ firstDay, Until "20260102" System.init l := by decide +kernel
  have hlater : ∀ l ∈ secondDay, Later "20260102" System.init l := by decide +kernel
  refine asof_is_then notes_noDeleted hs ?_ ht ?_ ?_ (by simp [notesSchema]) none
  · exact Guarded.of_forall fun l hl _ => hup l hl
  · exact Guarded.of_forall fun l hl _ => hlater l hl
  · rw [hidle]
    trivial

end Seekbase
