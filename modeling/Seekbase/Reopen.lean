/-
# Seekbase.Reopen — a full-text index that is owed, and a restart that pays.

DuckDB's full-text index is a snapshot: it is what the table was when `create_fts_index` last ran.  The
store runs it at the end of a batch, in a rebuild, and for every table when it opens, so that from an
insert's first row until then a search goes without.  Whoever has written owes the snapshot; a failure
in between leaves it owed by nobody, and so it stays until the table's next insert or the next open.

* `Process`          — the system with the process around it, which may end at any step and opens again;
* `Process.Owes`     — somebody still has the table's snapshot to take;
* `Process.Unspoilt` — a step in which nobody who owes one drops it;
* `index_follows`    — from ANY state: once the process has ended, and as long as nobody drops one, each
                       snapshot is in step with its table or owed.
-/
import Seekbase.Derived

namespace Seekbase

open JsonText Transition

/-- The tables that `_setup_search` has not got to, while the store opens. -/
structure Process where
  sys : System
  opening : Option (List TableSpec)

inductive ProcessLabel where
  /-- Anything the open store does. -/
  | sys (l : Label)
  /-- The process ends: a crash, a close, an open that raises. -/
  | exit
  /-- `_build_fts` of the next table. -/
  | build
  | opened

section Steps

variable (env : Env) (schema : Schema)

/-- `open` and what goes on then.  `_create_tables` finds every table there, `_setup_lance` every
dataset, and neither touches them. -/
def processStep (p : Process) : ProcessLabel → Option Process
  | .sys .crash => none
  | .sys l => if p.opening.isNone then (step env schema p.sys l).map (⟨·, none⟩) else none
  | .exit => (step env schema p.sys .crash).map (⟨·, some schema.tables⟩)
  | .build =>
    match p.opening with
    | some (spec :: todo) =>
      match exec env (.rebuildFts spec) p.sys.db with
      | .ok db => some ⟨{ p.sys with db := db }, some todo⟩
      | .error _ => none
    | _ => none
  | .opened =>
    match p.opening with
    | some [] => some { p with opening := none }
    | _ => none

/-- The store opens over an empty directory. -/
def Process.init : Process := ⟨System.init, some schema.tables⟩

/-- An act that leaves the keys and tokens of every table alone. -/
def Act.Rowless (a : Act) : Prop := ∀ name, a.Spares name

/-- Whoever is at the rows of a table has still to take its snapshot: an open, a batch, the insert at
the worker, a rebuild. -/
inductive Process.Owes (p : Process) (spec : TableSpec) : Prop where
  | opening {todo : List TableSpec} (ho : p.opening = some todo) (hspec : spec ∈ todo)
  | batch (hspec : spec ∈ p.sys.touched)
  | insert {done todo : List Act} {a : Act} (hw : p.sys.worker = .acting (some spec) done todo)
    (ha : a ∈ done) (hrow : ¬ a.Spares spec.name)
  | rebuild {i : Nat} {snaps : List Snap} {todo : List Act}
    (hi : p.sys.rebuilds[i]? = some (.acting snaps todo)) (hspec : .rebuildFts spec ∈ todo)

/-- Nobody drops a snapshot that is due: an insert that fails has not got to its rows, no snapshot fails,
and a rebuild does not end early once it has begun to clear. -/
def Process.Unspoilt (p : Process) : ProcessLabel → Prop
  | .sys .fault => ∀ fts done todo, p.sys.worker = .acting fts done todo → ∀ a ∈ done, a.Rowless
  | .sys .write => ∀ fts done a todo, p.sys.worker = .acting fts done (a :: todo) →
    (∃ db, exec env a p.sys.db = .ok db) ∨ ∀ a ∈ done, a.Rowless
  | .sys .refreshFault => False
  | .sys (.stop i) => ∀ snaps todo, p.sys.rebuilds[i]? ≠ some (.acting snaps todo)
  | .sys (.replay i) => ∀ snaps a todo, p.sys.rebuilds[i]? = some (.acting snaps (a :: todo)) →
    ∃ db, exec env a p.sys.db = .ok db
  | _ => True

end Steps

section Programs

variable {env : Env} {schema : Schema} {spec : TableSpec}

/-- What an operation has still to do to its table's rows is what its batch takes the snapshot for. -/
def Worker.Fits (schema : Schema) : Worker → Prop
  | .decided d => d.Of schema
  | .acting fts _ todo => ∀ spec ∈ schema.tables, ∀ a ∈ todo, a.Spares spec.name ∨ fts = some spec
  | _ => True

/-- If acts touch the rows of the table they take its snapshot after that. -/
def Mended (spec : TableSpec) (acts : List Act) : Prop :=
  (∀ a ∈ acts, a.Spares spec.name)
    ∨ ∃ before after, acts = before ++ .rebuildFts spec :: after ∧ ∀ a ∈ after, a.Spares spec.name

def Rebuild.Mends (schema : Schema) : Rebuild → Prop
  | .reading _ todo snaps => snaps.map Snap.spec ++ todo = schema.tables
  | .acting _ todo => ∀ spec ∈ schema.tables, Mended spec todo
  | _ => True

theorem plan_fits (hemb : env.embedder.isSome = true) {st : Stamp} {d : Decision} (hd : d.Of schema) :
    (Worker.plan env st d).Fits schema := by
  unfold Worker.plan
  split
  · next acts hacts =>
    intro spec hspec a ha
    cases d with
    | records other rs =>
      rcases plan_records hacts with rfl | ⟨emb, -, rfl⟩
      · cases ha
      · rcases mem_insertActs ha with ⟨r, -, rfl⟩ | ⟨i, r, hr, rfl⟩ | rfl
        · exact Or.inl trivial
        · by_cases hname : other.name = spec.name
          · obtain rfl := schema.eq_of_name hd hspec hname
            have hne : rs ≠ [] := fun heq => by rw [heq] at hr; cases hr
            obtain ⟨x, xs, rfl⟩ := List.exists_cons_of_ne_nil hne
            exact Or.inr (if_pos hemb)
          · exact Or.inl hname
        · exact Or.inl trivial
    | keys other ks =>
      obtain rfl := Except.ok.inj hacts
      rcases mem_deleteActs ha with ⟨k, -, rfl⟩ | rfl <;> exact Or.inl trivial
  · trivial

theorem decide_fits (db : Db) (op : Op) : (Worker.decide env schema db op).Fits schema := by
  unfold Worker.decide
  split
  · next d hd => exact decide_of hd
  · trivial

theorem Mended.tail {a : Act} {acts : List Act} (h : Mended spec (a :: acts)) : Mended spec acts := by
  rcases h with h | ⟨before, after, heq, hafter⟩
  · exact Or.inl fun x hx => h x (List.mem_cons_of_mem a hx)
  · rcases List.cons_eq_append_iff.mp heq with ⟨-, hrest⟩ | ⟨before', -, hrest⟩
    · obtain ⟨-, rfl⟩ := List.cons.inj hrest
      exact Or.inl hafter
    · exact Or.inr ⟨before', after, hrest, hafter⟩

/-- A replay clears and loads, and each load ends with its table's snapshot. -/
theorem replayActs_mended {now : String → Nat → String} {snaps : List Snap}
    (h : snaps.map Snap.spec = schema.tables) (hspec : spec ∈ schema.tables) :
    Mended spec (replayActs env schema now snaps) := by
  rw [← h] at hspec
  obtain ⟨s, hs, rfl⟩ := List.mem_map.mp hspec
  obtain ⟨before, after, rfl⟩ := List.append_of_mem hs
  have hnd : ((before ++ s :: after).map (·.spec.name)).Nodup := by
    have hnames := schema.namesNodup
    rw [← h, List.map_map] at hnames
    exact hnames
  have hother : ∀ t ∈ after, t.spec.name ≠ s.spec.name := by
    rw [List.map_append, List.map_cons] at hnd
    have hnot := (List.nodup_cons.mp (List.nodup_append.mp hnd).2.1).1
    intro t ht heq
    exact hnot (List.mem_map.mpr ⟨t, ht, heq⟩)
  refine Or.inr ⟨clearActs schema ++ (before.flatMap fun t => loadActs env (now t.spec.name) t)
    ++ (reloadActs (now s.spec.name) s ++ remarkActs s), (refreshActs env s).tail
    ++ after.flatMap fun t => loadActs env (now t.spec.name) t, ?_, ?_⟩
  · unfold replayActs loadActs
    simp only [List.flatMap_append, List.flatMap_cons, List.append_assoc]
    rfl
  · intro a ha
    rcases List.mem_append.mp ha with ha | ha
    · replace ha : a ∈ ite _ _ _ := ha
      split at ha
      · rw [List.mem_singleton.mp ha]
        trivial
      · cases ha
    · obtain ⟨t, ht, ha⟩ := List.mem_flatMap.mp ha
      exact load_spares (hother t ht) a ha

end Programs

/-! ## The invariant -/

section Follows

variable {env : Env} {schema : Schema} {spec : TableSpec} {p q : Process}

/-- Every snapshot is in step with its table, or owed by somebody who will take it. -/
structure Process.Sound (schema : Schema) (p : Process) : Prop where
  worker : p.sys.worker.Fits schema
  rebuilds : ∀ r ∈ p.sys.rebuilds, r.Mends schema
  follows : ∀ spec ∈ schema.tables, spec.searchable ≠ [] → InStep spec p.sys.db ∨ p.Owes spec

theorem refresh_inStep (hvss : env.vss = true) (hs : spec.searchable ≠ []) {db db' : Db}
    (he : exec env (.rebuildFts spec) db = .ok db') : InStep spec db' := by
  have hspare : (Act.rebuildFts spec).Spares spec.name := trivial
  show db'.fts spec.name = _
  rw [refresh_fts he hvss hs, exec_spares hspare he]

/-- A debt is kept by whoever still has it. -/
theorem Process.Owes.keep (h : p.Owes spec) (hopening : q.opening = p.opening)
    (htouched : p.sys.touched ⊆ q.sys.touched)
    (hinsert : ∀ done todo, ∀ a ∈ done, p.sys.worker = Worker.acting (some spec) done todo →
      ¬ a.Spares spec.name → q.Owes spec)
    (hrebuild : ∀ (i : Nat) snaps todo, p.sys.rebuilds[i]? = some (Rebuild.acting snaps todo) →
      q.sys.rebuilds[i]? = some (.acting snaps todo)) : q.Owes spec := by
  cases h with
  | opening ho hspec => exact .opening (hopening.trans ho) hspec
  | batch hspec => exact .batch (htouched hspec)
  | insert hw ha hrow => exact hinsert _ _ _ ha hw hrow
  | rebuild hi hspec => exact .rebuild (hrebuild _ _ _ hi) hspec

section Worker

variable {s t : System}

/-- A step of the worker between two operations, or between two acts that touch no rows. -/
theorem worker_sound (h : Process.Sound schema ⟨s, none⟩) {w : Worker} {touched : List TableSpec}
    {executed acked : List Line} (hfits : w.Fits schema) (htouched : s.touched ⊆ touched)
    (hinsert : ∀ spec done todo, ∀ a ∈ done, s.worker = .acting (some spec) done todo →
      ¬ a.Spares spec.name → spec ∈ touched) :
    Process.Sound schema ⟨⟨s.db, w, executed, touched, s.rebuilds, acked⟩, none⟩ where
  worker := hfits
  rebuilds := h.rebuilds
  follows := fun spec hspec hs => (h.follows spec hspec hs).imp_right fun howed =>
    howed.keep rfl htouched
      (fun _ _ a ha hw hrow => .batch (hinsert spec _ _ a ha hw hrow))
      fun _ _ _ hi => hi

/-- The worker's act is done. -/
theorem write_sound (h : Process.Sound schema ⟨s, none⟩) {fts : Option TableSpec} {done todo : List Act}
    {a : Act} {db : Db} (hw : s.worker = .acting fts done (a :: todo)) (he : exec env a s.db = .ok db) :
    Process.Sound schema ⟨{ s with db := db, worker := .acting fts (done ++ [a]) todo }, none⟩ where
  worker := by
    have hfits := h.worker
    rw [hw] at hfits
    exact fun spec hspec x hx => hfits spec hspec x (List.mem_cons_of_mem a hx)
  rebuilds := h.rebuilds
  follows := by
    intro spec hspec hs
    have hfits := h.worker
    rw [hw] at hfits
    by_cases hspare : a.Spares spec.name
    · refine (h.follows spec hspec hs).imp (exec_inStep hspare · he) fun howed => ?_
      refine howed.keep rfl (List.Subset.refl _) ?_ fun _ _ _ hi => hi
      intro done' todo' x hx hw' hrow
      obtain ⟨rfl, rfl, -⟩ := Worker.acting.inj (hw.symm.trans hw')
      exact .insert rfl (List.mem_append_left _ hx) hrow
    · -- the insert owes the snapshot from here on
      obtain rfl := (hfits spec hspec a List.mem_cons_self).resolve_left hspare
      exact Or.inr (.insert rfl (List.mem_append_right _ (List.mem_singleton_self a)) hspare)

/-- The batch takes a snapshot. -/
theorem refresh_sound (hvss : env.vss = true) (h : Process.Sound schema ⟨s, none⟩)
    (hs : step env schema s .refresh = some t) : Process.Sound schema ⟨t, none⟩ := by
  simp only [step] at hs
  split at hs
  · next other rest hw ht =>
    split at hs
    · next db he =>
      obtain rfl := Option.some.inj hs
      refine ⟨h.worker, h.rebuilds, fun spec hspec hsearch => ?_⟩
      have hspare : (Act.rebuildFts other).Spares spec.name := trivial
      rcases h.follows spec hspec hsearch with hstep | howed
      · exact Or.inl (exec_inStep hspare hstep he)
      · by_cases heq : spec = other
        · subst heq
          exact Or.inl (refresh_inStep hvss hsearch he)
        · cases howed with
          | opening ho hmem => cases ho
          | batch hmem =>
            replace hmem : spec ∈ s.touched := hmem
            rw [ht] at hmem
            exact Or.inr (.batch ((List.mem_cons.mp hmem).resolve_left heq))
          | insert hw' => exact absurd (hw.symm.trans hw') (by simp)
          | rebuild hi hmem => exact Or.inr (.rebuild hi hmem)
    · next he => cases he
  · cases hs

end Worker

section Rebuilds

variable {s t : System} {i : Nat} {r r' : Rebuild}

/-- A rebuild that has no snapshot to take goes on to something else. -/
theorem turn_sound (h : Process.Sound schema ⟨s, none⟩) (hi : s.rebuilds[i]? = some r)
    (hmends : r'.Mends schema) (hfree : ∀ spec snaps todo, r = .acting snaps todo →
      .rebuildFts spec ∉ todo) : Process.Sound schema ⟨s.setRebuild i r', none⟩ where
  worker := h.worker
  rebuilds := by
    intro x hx
    rcases List.mem_or_eq_of_mem_set hx with hold | rfl
    · exact h.rebuilds x hold
    · exact hmends
  follows := by
    intro spec hspec hs
    refine (h.follows spec hspec hs).imp_right fun howed => ?_
    cases howed with
    | opening ho hmem => cases ho
    | batch hmem => exact .batch hmem
    | insert hw ha hrow => exact .insert hw ha hrow
    | @rebuild j snaps todo hj hmem =>
      have hne : i ≠ j := by
        rintro rfl
        exact hfree spec snaps todo (Option.some.inj (hi.symm.trans hj)) hmem
      exact .rebuild ((List.getElem?_set_ne hne).trans hj) hmem

/-- A rebuild's act is done. -/
theorem replay_act_sound (hvss : env.vss = true) (h : Process.Sound schema ⟨s, none⟩)
    {snaps : List Snap} {a : Act} {todo : List Act} {db : Db}
    (hi : s.rebuilds[i]? = some (.acting snaps (a :: todo))) (he : exec env a s.db = .ok db) :
    Process.Sound schema ⟨{ s with db := db }.setRebuild i (.acting snaps todo), none⟩ where
  worker := h.worker
  rebuilds := by
    intro x hx
    rcases List.mem_or_eq_of_mem_set hx with hold | rfl
    · exact h.rebuilds x hold
    · exact fun spec hspec => (h.rebuilds _ (List.mem_of_getElem? hi) spec hspec).tail
  follows := by
    intro spec hspec hs
    have hnow : (s.rebuilds.set i (.acting snaps todo))[i]? = some (.acting snaps todo) :=
      List.getElem?_set_self (List.getElem?_eq_some_iff.mp hi).1
    by_cases hlater : .rebuildFts spec ∈ todo
    · exact Or.inr (.rebuild hnow hlater)
    by_cases hits : a = .rebuildFts spec
    · subst hits
      exact Or.inl (refresh_inStep hvss hs he)
    -- neither this act nor a later one takes the snapshot: none of them touches the table's rows
    have hspare : a.Spares spec.name := by
      rcases h.rebuilds _ (List.mem_of_getElem? hi) spec hspec with hall | ⟨before, after, heq, -⟩
      · exact hall a List.mem_cons_self
      · have hmem : .rebuildFts spec ∈ a :: todo := heq ▸ List.mem_append_right _ List.mem_cons_self
        rcases List.mem_cons.mp hmem with hmem | hmem
        · exact absurd hmem.symm hits
        · exact absurd hmem hlater
    refine (h.follows spec hspec hs).imp (exec_inStep hspare · he) fun howed => ?_
    cases howed with
    | opening ho hmem => cases ho
    | batch hmem => exact .batch hmem
    | insert hw ha hrow => exact .insert hw ha hrow
    | @rebuild j snaps' todo' hj hmem =>
      have hne : i ≠ j := by
        rintro rfl
        obtain ⟨-, rfl⟩ := Rebuild.acting.inj (Option.some.inj (hi.symm.trans hj))
        rcases List.mem_cons.mp hmem with hmem | hmem
        · exact hits hmem.symm
        · exact hlater hmem
      exact .rebuild ((List.getElem?_set_ne hne).trans hj) hmem

theorem read_mends {files : Files} {now : String → Nat → String} {todo : List TableSpec}
    {snaps : List Snap} (h : (Rebuild.reading now (spec :: todo) snaps).Mends schema) :
    (Rebuild.read env files now spec todo snaps).Mends schema := by
  unfold Rebuild.read
  split
  · next snap hsnap =>
    obtain ⟨emb, -, rfl⟩ := snapshot_ok_iff.mp hsnap
    show List.map _ _ ++ todo = _
    rw [List.map_append, List.append_assoc]
    exact h
  · trivial

theorem background_sound (h : Process.Sound schema ⟨s, none⟩) {l : Label} (hl : l.Background)
    (hguard : Process.Unspoilt env ⟨s, none⟩ (.sys l)) (hs : step env schema s l = some t) :
    Process.Sound schema ⟨t, none⟩ := by
  rcases background_cases hl hs with ⟨now, -, rfl⟩ | ⟨i, now, spec, todo, snaps, -, hi, rfl⟩ |
    ⟨i, rfl, rfl⟩
  · refine ⟨h.worker, fun r hr => ?_, fun spec hspec hsearch => ?_⟩
    · rcases List.mem_append.mp hr with hr | hr
      · exact h.rebuilds r hr
      · rw [List.mem_singleton.mp hr]
        rfl
    · refine (h.follows spec hspec hsearch).imp_right fun howed => howed.keep rfl (List.Subset.refl _) ?_ ?_
      · exact fun _ _ a ha hw hrow => .insert hw ha hrow
      · intro j snaps todo hj
        show (s.rebuilds ++ _)[j]? = _
        rw [List.getElem?_append_left (List.getElem?_eq_some_iff.mp hj).1]
        exact hj
  · exact turn_sound h hi (read_mends (h.rebuilds _ (List.mem_of_getElem? hi))) nofun
  · cases hi : s.rebuilds[i]? with
    | none =>
      rw [step, hi] at hs
      cases hs
    | some r =>
      refine turn_sound h hi trivial ?_
      rintro spec snaps todo rfl
      exact absurd hi (hguard snaps todo)

theorem replay_sound (hvss : env.vss = true) (h : Process.Sound schema ⟨s, none⟩)
    (hguard : Process.Unspoilt env ⟨s, none⟩ (.sys (.replay i))) (hi : s.rebuilds[i]? = some r)
    (hs : Replays env schema s i r t) : Process.Sound schema ⟨t, none⟩ := by
  have hmends := h.rebuilds r (List.mem_of_getElem? hi)
  cases hs with
  | @start now snaps =>
    have hspecs : snaps.map Snap.spec = schema.tables := (List.append_nil _).symm.trans hmends
    exact turn_sound h hi (fun spec hspec => replayActs_mended hspecs hspec) nofun
  | act he => exact replay_act_sound hvss h hi he
  | @refuse snaps a todo e he =>
    obtain ⟨db, hdb⟩ := hguard snaps a todo hi
    rw [he] at hdb
    cases hdb
  | finish =>
    refine turn_sound h hi trivial ?_
    rintro spec snaps todo heq hmem
    obtain ⟨-, rfl⟩ := Rebuild.acting.inj heq
    cases hmem

end Rebuilds

/-- A failure at the worker finds no row written. -/
theorem drop_sound {s : System} (h : Process.Sound schema ⟨s, none⟩)
    (hquiet : ∀ fts done todo, s.worker = .acting fts done todo → ∀ a ∈ done, a.Rowless) :
    Process.Sound schema ⟨{ s with worker := .idle }, none⟩ :=
  worker_sound h trivial (List.Subset.refl _) fun spec _ _ a ha hw hrow =>
    absurd (hquiet _ _ _ hw a ha spec.name) hrow

/-- One step of the open store. -/
theorem sys_sound (hvss : env.vss = true) {s t : System} {l : Label} (hcrash : l ≠ .crash)
    (h : Process.Sound schema ⟨s, none⟩) (hguard : Process.Unspoilt env ⟨s, none⟩ (.sys l))
    (hs : step env schema s l = some t) : Process.Sound schema ⟨t, none⟩ := by
  have hemb : env.embedder.isSome = true := (Bool.and_eq_true_iff.mp hvss).2
  have hfits := h.worker
  rcases step_cases hs with ⟨i, r, rfl, hi, hr⟩ | hm
  · exact replay_sound hvss h hguard hi hr
  · cases hm with
    | take hw =>
      refine worker_sound h trivial (List.Subset.refl _) fun _ _ _ _ _ hw' => ?_
      exact absurd (hw.symm.trans hw') (by simp)
    | decide hw =>
      refine worker_sound h (decide_fits _ _) (List.Subset.refl _) fun _ _ _ _ _ hw' => ?_
      exact absurd (hw.symm.trans hw') (by simp)
    | plan hw =>
      rw [hw] at hfits
      refine worker_sound h (plan_fits hemb hfits) (List.Subset.refl _) fun _ _ _ _ _ hw' => ?_
      exact absurd (hw.symm.trans hw') (by simp)
    | write hw he => exact write_sound h hw he
    | @refuse fts done todo a e hw he =>
      refine drop_sound h fun fts' done' todo' hw' => ?_
      obtain ⟨-, rfl, -⟩ := Worker.acting.inj (hw.symm.trans hw')
      refine (hguard _ _ _ _ hw).resolve_left ?_
      rintro ⟨db, hdb⟩
      rw [he] at hdb
      cases hdb
    | fault hw => exact drop_sound h hguard
    | finish hw =>
      refine worker_sound h trivial (List.subset_append_left _ _) fun spec _ _ _ _ hw' _ => ?_
      obtain ⟨rfl, -, -⟩ := Worker.acting.inj (hw.symm.trans hw')
      exact List.mem_append_right _ (List.mem_singleton_self spec)
    | refresh => exact refresh_sound hvss h hs
    | skip hw ht hl =>
      rcases hl with rfl | rfl
      · exact refresh_sound hvss h hs
      · exact hguard.elim
    | settle hw ht =>
      refine worker_sound h hfits (List.Subset.refl _) fun _ _ _ _ _ hw' => ?_
      exact absurd (hw.symm.trans hw') (by simp)
    | background hl => exact background_sound h hl hguard hs
    | crash => exact absurd rfl hcrash

/-- A table's turn while the store opens. -/
theorem build_sound (hvss : env.vss = true) {other : TableSpec} {todo : List TableSpec} {db : Db}
    (h : p.Sound schema) (ho : p.opening = some (other :: todo))
    (he : exec env (.rebuildFts other) p.sys.db = .ok db) :
    Process.Sound schema ⟨{ p.sys with db := db }, some todo⟩ where
  worker := h.worker
  rebuilds := h.rebuilds
  follows := by
    intro spec hspec hs
    have hspare : (Act.rebuildFts other).Spares spec.name := trivial
    rcases h.follows spec hspec hs with hstep | howed
    · exact Or.inl (exec_inStep hspare hstep he)
    · by_cases heq : spec = other
      · subst heq
        exact Or.inl (refresh_inStep hvss hs he)
      · cases howed with
        | opening ho' hmem =>
          obtain rfl := Option.some.inj (ho.symm.trans ho')
          exact Or.inr (.opening rfl ((List.mem_cons.mp hmem).resolve_left heq))
        | batch hmem => exact Or.inr (.batch hmem)
        | insert hw ha hrow => exact Or.inr (.insert hw ha hrow)
        | rebuild hi hmem => exact Or.inr (.rebuild hi hmem)

/-- The store is open once every table has had its turn. -/
theorem opened_sound (h : p.Sound schema) (ho : p.opening = some []) :
    Process.Sound schema { p with opening := none } where
  worker := h.worker
  rebuilds := h.rebuilds
  follows := by
    intro spec hspec hs
    refine (h.follows spec hspec hs).imp_right fun howed => ?_
    cases howed with
    | opening ho' hmem =>
      obtain rfl := Option.some.inj (ho.symm.trans ho')
      cases hmem
    | batch hmem => exact .batch hmem
    | insert hw ha hrow => exact .insert hw ha hrow
    | rebuild hi hmem => exact .rebuild hi hmem

/-- When the process ends nothing runs any more, and the next open owes every snapshot. -/
theorem exit_sound (hs : processStep env schema p .exit = some q) : q.Sound schema := by
  simp only [processStep] at hs
  obtain ⟨s, hcrash, rfl⟩ := Option.map_eq_some_iff.mp hs
  obtain rfl := Option.some.inj hcrash
  exact ⟨trivial, nofun, fun spec hspec _ => Or.inr (.opening rfl hspec)⟩

theorem process_step_sound (hvss : env.vss = true) (h : p.Sound schema) {l : ProcessLabel}
    (hguard : p.Unspoilt env l) (hs : processStep env schema p l = some q) : q.Sound schema := by
  cases l with
  | sys l =>
    by_cases hcrash : l = .crash
    · subst hcrash
      cases hs
    · rw [processStep] at hs
      · split at hs
        · next hopen =>
          obtain ⟨s, ho⟩ := p
          obtain rfl := Option.isNone_iff_eq_none.mp hopen
          obtain ⟨t, ht, rfl⟩ := Option.map_eq_some_iff.mp hs
          exact sys_sound hvss hcrash h hguard ht
        · cases hs
      · exact hcrash
  | exit => exact exit_sound hs
  | build =>
    simp only [processStep] at hs
    split at hs
    · next ho =>
      split at hs
      · next he => exact Option.some.inj hs ▸ build_sound hvss h ho he
      · cases hs
    · cases hs
  | opened =>
    simp only [processStep] at hs
    split at hs
    · next ho => exact Option.some.inj hs ▸ opened_sound h ho
    · cases hs

/-- The store is open and nothing is under way. -/
def Process.AtRest (p : Process) : Prop :=
  p.opening = none ∧ p.sys.worker = .idle ∧ p.sys.touched = [] ∧ ∀ r ∈ p.sys.rebuilds, r.live = false

theorem rest_owes (h : p.AtRest) : ¬ p.Owes spec := by
  obtain ⟨hopen, hidle, htouched, hended⟩ := h
  intro howed
  cases howed with
  | opening ho => exact absurd (hopen.symm.trans ho) (by simp)
  | batch hmem =>
    rw [htouched] at hmem
    cases hmem
  | insert hw => exact absurd (hidle.symm.trans hw) (by simp)
  | rebuild hi => exact absurd (hended _ (List.mem_of_getElem? hi)) (by simp [Rebuild.live])

/-- Search follows the tables.  Whatever has happened before, from the end of one process on, and for as
long as nobody drops a snapshot that is due, each full-text snapshot is in step with its table or there is
somebody who will take it; so when nothing is under way each is in step. -/
theorem index_follows (hvss : env.vss = true) {labels : List ProcessLabel}
    (hguard : Guarded (processStep env schema) (Process.Unspoilt env) p (.exit :: labels))
    (hrun : run (processStep env schema) p (.exit :: labels) = some q) :
    ∀ spec ∈ schema.tables, spec.searchable ≠ [] →
      (InStep spec q.sys.db ∨ q.Owes spec) ∧ (q.AtRest → InStep spec q.sys.db) := by
  obtain ⟨c, hexit, hrun⟩ := run_cons_iff.mp hrun
  have hsound : q.Sound schema :=
    run_guarded (fun _ _ _ hx hl hs => process_step_sound hvss hx hl hs) (exit_sound hexit)
      (hguard.2 c hexit) hrun
  intro spec hspec hs
  have hfollows := hsound.follows spec hspec hs
  exact ⟨hfollows, fun hrest => hfollows.resolve_right (rest_owes hrest)⟩

end Follows

/-! ## An insert that fails between its rows -/

/-- Of two notes one is stored, and DuckDB fails the other: no snapshot will be taken. -/
def spoiltInsert : List ProcessLabel :=
  [.build, .opened] ++ ([.take (.insert "notes" [[("id", strVal "n1"), ("text", strVal "v1")],
    [("id", strVal "n2"), ("text", strVal "v2")]] false), .decide, .plan ⟨"20260102", "t1", t1_ne⟩,
    .write, .write, .write, .fault] : List Label).map .sys

theorem index_follows_note : ∃ p q,
    run (processStep searchEnv searchSchema) (Process.init searchSchema) spoiltInsert = some p
      ∧ p.sys.worker = .idle ∧ p.sys.touched = [] ∧ ¬ InStep searchNotes p.sys.db
      ∧ run (processStep searchEnv searchSchema) p [.exit, .build, .opened] = some q
      ∧ InStep searchNotes q.sys.db := by
  have hspoilt : (run (processStep searchEnv searchSchema) (Process.init searchSchema) spoiltInsert).map
      (fun p => (decide (p.sys.worker = .idle), p.sys.touched.isEmpty, (p.sys.db.fts "notes").length,
        (p.sys.db.tables "notes").rows.length,
        (run (processStep searchEnv searchSchema) p [.exit, .build, .opened]).map fun q =>
          (q.opening.isNone, decide (q.sys.worker = .idle), q.sys.touched.isEmpty,
            q.sys.rebuilds.isEmpty)))
      = some (true, true, 0, 1, some (true, true, true, true)) := rfl
  obtain ⟨p, hp, heq⟩ := Option.map_eq_some_iff.mp hspoilt
  simp only [Prod.mk.injEq, decide_eq_true_eq, List.isEmpty_iff] at heq
  obtain ⟨hidle, htouched, hfts, hrows, hreopened⟩ := heq
  obtain ⟨q, hq, heq⟩ := Option.map_eq_some_iff.mp hreopened
  simp only [Prod.mk.injEq, decide_eq_true_eq, List.isEmpty_iff, Option.isNone_iff_eq_none] at heq
  obtain ⟨hopen, hidle', htouched', hrebuilds⟩ := heq
  refine ⟨p, q, hp, hidle, htouched, fun hstep => ?_, hq, ?_⟩
  · have hlen := congrArg List.length hstep
    rw [ftsRows, List.length_map] at hlen
    exact absurd (hfts.symm.trans (hlen.trans hrows)) (by decide)
  · have hguard : Guarded (processStep searchEnv searchSchema) (Process.Unspoilt searchEnv) p
        [.exit, .build, .opened] := Guarded.of_forall fun l hl t => by
      simp only [List.mem_cons, List.not_mem_nil, or_false] at hl
      rcases hl with rfl | rfl | rfl <;> trivial
    have hfollows := index_follows (by rfl) hguard hq searchNotes (by simp [searchSchema]) (by decide)
    refine hfollows.2 ⟨hopen, hidle', htouched', fun r hr => ?_⟩
    rw [hrebuilds] at hr
    cases hr

end Seekbase
