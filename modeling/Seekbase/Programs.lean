/-
# Seekbase.Programs — what the acts of the worker and of a rebuild owe the log.

For file ≥ DuckDB it was enough that nothing is inserted without its line.  When operations overlap
the other direction counts as well: a line that is in the log has to become a row, or a mark, of
some act that is still to come.

* `Act.InsertsKey`, `Act.Marks` — what an act will do for a key, and for a tombstone;
* `Act.Grounded` — an insert stores the row of a put line, a mark is the mark of a tombstone;
* `Paired`       — behind every append of a program is the act that applies it;
* `Ordered`      — no row of a table is inserted after a mark on it;
* `programs_stable` — every program of the system has all three, in every run.
-/
import Seekbase.Canonical

namespace Seekbase

open JsonText Transition

section Acts

variable (env : Env) (schema : Schema) (spec : TableSpec)

/-- The act inserts a row whose key has this text. -/
def Act.InsertsKey (key : Option String) : Act → Prop
  | .insert other r _ ds ca =>
    other.name = spec.name ∧ (env.stored other r ds ca).toOption.map (·.key.text) = some key
  | _ => False

/-- The act sets the mark of a tombstone. -/
def Act.Marks (d : Del) : Act → Prop
  | .softDelete other keys ds deletedAt => other.name = spec.name ∧ d.key ∈ keys ∧ ds = d.ds
    ∧ env.bindText deletedAt = env.bindText (.json d.deletedAt)
  | _ => False

instance (key : Option String) : (a : Act) → Decidable (a.InsertsKey env spec key)
  | .insert _ _ _ _ _ => inferInstanceAs (Decidable (_ ∧ _))
  | .append _ _ _ | .softDelete _ _ _ _ | .clear _ | .rebuildFts _ | .indexAppend _ _
  | .indexOverwrite _ _ => inferInstanceAs (Decidable False)

instance (d : Del) : (a : Act) → Decidable (a.Marks env spec d)
  | .softDelete _ _ _ _ => inferInstanceAs (Decidable (_ ∧ _ ∧ _ ∧ _))
  | .append _ _ _ | .insert _ _ _ _ _ | .clear _ | .rebuildFts _ | .indexAppend _ _
  | .indexOverwrite _ _ => inferInstanceAs (Decidable False)

/-- A tombstone line as the replay reads it. -/
def lineDel (repr : Json → String) (ds : String) (m : Members) : Del :=
  ⟨(Val.json (m.get "_deleted")).str repr, ds, m.get "deleted_at"⟩

/-- What the act inserts or marks is a line of the log. -/
def Act.Grounded (files : Files) : Act → Prop
  | .append ds table line => Act.Logs schema (.append ds table line)
  | .insert spec r _ ds ca => spec ∈ schema.tables
    ∧ ∃ m ∈ putsOf (tableEvents files spec.name), env.stored spec r ds ca = env.lineRow spec m
  | .softDelete spec keys ds deletedAt => spec ∈ schema.tables
    ∧ ∀ key ∈ keys, ∃ d ∈ delsOf env.repr (tableEvents files spec.name), d.key = key ∧ d.ds = ds
      ∧ env.bindText deletedAt = env.bindText (.json d.deletedAt)
  | _ => True

/-- The acts behind an append apply the line. -/
def Act.Pays (rest : List Act) : Act → Prop
  | .append ds table line => ∀ m, line.toMembers? = some m → ∀ spec ∈ schema.tables,
    spec.name = table →
      (isTombstone m = false → ∀ row, env.lineRow spec m = .ok row →
        ∃ b ∈ rest, b.InsertsKey env spec row.key.text)
      ∧ (isTombstone m = true → ∃ b ∈ rest, b.Marks env spec (lineDel env.repr ds m))
  | _ => True

def Paired : List Act → Prop
  | [] => True
  | a :: rest => a.Pays env schema rest ∧ Paired rest

/-- A mark on a table and an insert into it stand in the other order. -/
def Act.MayPrecede : Act → Act → Prop
  | .softDelete spec _ _ _, .insert other _ _ _ _ => other.name ≠ spec.name
  | _, _ => True

abbrev Ordered (acts : List Act) : Prop := acts.Pairwise Act.MayPrecede

/-- A program of the worker or of a rebuild. -/
structure Program (files : Files) (acts : List Act) : Prop where
  grounded : Along (Act.Grounded env schema) files acts
  paired : Paired env schema acts
  ordered : Ordered acts

/-- A key that `json.dumps` takes prints as what `json.loads` reads back: DuckDB fetches keys as
texts and numbers. -/
def Env.KeysPrint : Prop := ∀ spec cond params views ks,
  env.selectKeys spec cond params views = .ok ks → ∀ k ∈ ks, ∀ j, k.toJson? = some j →
    (Val.json j).str env.repr = k.str env.repr

def Decision.Prints : Decision → Prop
  | .keys _ ks => ∀ k ∈ ks, ∀ j, k.toJson? = some j → (Val.json j).str env.repr = k.str env.repr
  | _ => True

/-- A snapshot whose events are still in the log. -/
structure SnapIn (files : Files) (s : Snap) : Prop where
  spec : s.spec ∈ schema.tables
  puts : ∀ m ∈ s.puts, m ∈ putsOf (tableEvents files s.spec.name)
  created : ∀ m ∈ s.puts, truthy (m.get "created_at") = true
  dels : ∀ d ∈ s.dels, d ∈ delsOf env.repr (tableEvents files s.spec.name)

end Acts

section Growth

variable {env : Env} {schema : Schema} {files more : Files}

theorem putsOf_mono (hsub : files ⊆ more) {name : String} {m : Members}
    (h : m ∈ putsOf (tableEvents files name)) : m ∈ putsOf (tableEvents more name) := by
  obtain ⟨ds, hev, hput⟩ := mem_putsOf.mp h
  exact mem_putsOf.mpr ⟨ds, mem_tableEvents.mpr (hsub (mem_tableEvents.mp hev)), hput⟩

theorem delsOf_mono (hsub : files ⊆ more) {repr : Json → String} {name : String} {d : Del}
    (h : d ∈ delsOf repr (tableEvents files name)) : d ∈ delsOf repr (tableEvents more name) := by
  obtain ⟨m, hev, htomb, hd⟩ := mem_delsOf.mp h
  exact mem_delsOf.mpr ⟨m, mem_tableEvents.mpr (hsub (mem_tableEvents.mp hev)), htomb, hd⟩

theorem grounded_mono (files more : Files) (a : Act) (h : a.Grounded env schema files)
    (hsub : files ⊆ more) : a.Grounded env schema more := by
  cases a with
  | append ds table line => exact h
  | insert spec r search ds ca =>
    obtain ⟨hspec, m, hm, heq⟩ := h
    exact ⟨hspec, m, putsOf_mono hsub hm, heq⟩
  | softDelete spec keys ds at' =>
    refine ⟨h.1, fun key hkey => ?_⟩
    obtain ⟨d, hd, hrest⟩ := h.2 key hkey
    exact ⟨d, delsOf_mono hsub hd, hrest⟩
  | clear spec | rebuildFts spec => trivial
  | indexAppend spec rows | indexOverwrite spec rows => trivial

theorem Act.Pays.mono {a : Act} {rest : List Act} (h : a.Pays env schema rest) {longer : List Act}
    (hsub : rest ⊆ longer) : a.Pays env schema longer := by
  cases a with
  | append ds table line =>
    intro m hm spec hspec hname
    obtain ⟨hput, htomb⟩ := h m hm spec hspec hname
    refine ⟨fun hno row hrow => ?_, fun hyes => ?_⟩
    · obtain ⟨b, hb, hins⟩ := hput hno row hrow
      exact ⟨b, hsub hb, hins⟩
    · obtain ⟨b, hb, hmark⟩ := htomb hyes
      exact ⟨b, hsub hb, hmark⟩
  | _ => trivial

/-- Acts that are all paid by what follows them. -/
theorem paired_append {a b : List Act} (ha : ∀ x ∈ a, x.Pays env schema b)
    (hb : Paired env schema b) : Paired env schema (a ++ b) := by
  induction a with
  | nil => exact hb
  | cons x a ih =>
    refine ⟨(ha x (by simp)).mono (List.subset_append_right a b), ih fun y hy => ?_⟩
    exact ha y (by simp [hy])

/-- Acts that append nothing owe nothing. -/
theorem paired_of_lines {acts : List Act} (h : ∀ a ∈ acts, ∀ ds table line,
    a ≠ .append ds table line) : Paired env schema acts := by
  induction acts with
  | nil => trivial
  | cons a acts ih =>
    refine ⟨?_, ih fun b hb => h b (by simp [hb])⟩
    cases a with
    | append ds table line => exact absurd rfl (h _ (by simp) ds table line)
    | _ => trivial

end Growth

/-! ## The programs of the system -/

section Programs

variable {env : Env} {schema : Schema} {files : Files} {spec : TableSpec}

theorem ordered_of_forall {acts : List Act} (h : ∀ a ∈ acts, ∀ b ∈ acts, a.MayPrecede b) :
    Ordered acts := List.pairwise_of_forall_mem_list h

theorem mayPrecede_other {a b : Act} (h : ∀ spec keys ds at', a ≠ .softDelete spec keys ds at') :
    a.MayPrecede b := by
  cases a with
  | softDelete spec keys ds at' => exact absurd rfl (h spec keys ds at')
  | _ => trivial

theorem insertActs_program (hrt : env.RoundTrip) (hspec : spec ∈ schema.tables)
    (hdel : "_deleted" ∉ spec.columnNames) (rs : List Record) (emb : List (String × List Search))
    (st : Stamp) : Program env schema files (insertActs env spec rs emb st) := by
  have hsplit : insertActs env spec rs emb st
      = putActs spec rs st ++ (rowActs spec rs emb st ++ indexActs env spec rs emb) :=
    List.append_assoc _ _ _
  have hputs : ∀ a ∈ putActs spec rs st, a.Grounded env schema files := by
    intro a ha
    obtain ⟨r, -, rfl⟩ := List.mem_map.mp ha
    exact ⟨spec, hspec, rfl, .put r st.ts st.tsNe⟩
  refine ⟨?_, ?_, ordered_of_forall fun a ha b _ => mayPrecede_other fun sp keys ds at' heq => ?_⟩
  · rw [hsplit]
    refine along_append (along_of_forall grounded_mono hputs) fun hdumps =>
      along_of_forall grounded_mono fun a ha => ?_
    rcases List.mem_append.mp ha with ha | ha
    · obtain ⟨i, hi, rfl⟩ := List.mem_mapIdx.mp ha
      have hput : Act.append st.ds spec.name (putLine spec rs[i] st.ds st.ts)
          ∈ putActs spec rs st := List.mem_map_of_mem (List.getElem_mem hi)
      obtain ⟨m, hm, hline⟩ := dumped_line hdumps hput
      refine ⟨hspec, m, mem_putsOf.mpr ⟨st.ds, ?_, put_not_tombstone hm hdel⟩,
        stored_roundTrip hrt hm⟩
      exact mem_tableEvents.mpr (List.mem_append_right _ hline)
    · rw [indexActs_mem ha]; trivial
  · rw [hsplit]
    refine paired_append (fun a ha => ?_) (paired_of_lines fun a ha ds table line heq => ?_)
    · obtain ⟨r, hr, rfl⟩ := List.mem_map.mp ha
      intro m hm other hother hname
      obtain rfl := schema.eq_of_name hother hspec hname
      refine ⟨fun _ row hrow => ?_, fun htomb => ?_⟩
      · obtain ⟨i, hi, rfl⟩ := List.getElem_of_mem hr
        refine ⟨_, List.mem_append_left _ (List.mem_mapIdx.mpr ⟨i, hi, rfl⟩), rfl, ?_⟩
        rw [stored_roundTrip hrt hm, hrow]; rfl
      · rw [put_not_tombstone hm hdel] at htomb
        cases htomb
    · rcases List.mem_append.mp ha with ha | ha
      · obtain ⟨i, hi, rfl⟩ := List.mem_mapIdx.mp ha
        cases heq
      · rw [indexActs_mem ha] at heq
        cases heq
  · rcases mem_insertActs ha with ⟨r, -, rfl⟩ | ⟨i, r, -, rfl⟩ | rfl <;> cases heq

theorem deleteActs_program (hspec : spec ∈ schema.tables) {ks : List Val}
    (hks : (Decision.keys spec ks).Prints env) (st : Stamp) :
    Program env schema files (deleteActs env.repr spec ks st) := by
  have htombs : ∀ a ∈ tombstoneActs spec ks st, a.Grounded env schema files := by
    intro a ha
    obtain ⟨k, -, rfl⟩ := List.mem_map.mp ha
    exact ⟨spec, hspec, rfl, .del k st.ts⟩
  refine ⟨?_, ?_, ordered_of_forall fun a ha b hb => ?_⟩
  · refine along_append (along_of_forall grounded_mono htombs) fun hdumps =>
      ⟨⟨hspec, fun key hkey => ?_⟩, fun _ => trivial⟩
    obtain ⟨k, hk, rfl⟩ := List.mem_map.mp hkey
    have happ : Act.append st.ds spec.name (tombstone k st.ts) ∈ tombstoneActs spec ks st :=
      List.mem_map_of_mem hk
    obtain ⟨m, hm, hline⟩ := dumped_line hdumps happ
    obtain ⟨j, hj, rfl⟩ := tombstone_members hm
    refine ⟨lineDel env.repr st.ds [("_deleted", j), ("deleted_at", .str st.ts)],
      mem_delsOf.mpr ⟨_, mem_tableEvents.mpr (List.mem_append_right _ hline),
        tombstone_isTombstone hm, rfl⟩, hks k hk j hj, rfl, rfl⟩
  · refine paired_append (fun a ha => ?_) ⟨trivial, trivial⟩
    obtain ⟨k, hk, rfl⟩ := List.mem_map.mp ha
    intro m hm other hother hname
    refine ⟨fun hno => ?_, fun _ => ⟨_, List.mem_singleton.mpr rfl, hname.symm, ?_, rfl, ?_⟩⟩
    · rw [tombstone_isTombstone hm] at hno
      cases hno
    · obtain ⟨j, hj, rfl⟩ := tombstone_members hm
      exact List.mem_map.mpr ⟨k, hk, (hks k hk j hj).symm⟩
    · obtain ⟨j, hj, rfl⟩ := tombstone_members hm
      rfl
  · rcases List.mem_append.mp hb with hb | hb
    · obtain ⟨k, -, rfl⟩ := List.mem_map.mp hb
      cases a <;> trivial
    · rw [List.mem_singleton.mp hb]
      cases a <;> trivial

theorem loadActs_grounded (now : Nat → String) {s : Snap} (h : SnapIn env schema files s) :
    ∀ a ∈ loadActs env now s, a.Grounded env schema files := by
  intro a ha
  simp only [loadActs, List.mem_append] at ha
  rcases ha with (ha | ha) | ha
  · obtain ⟨i, hi, rfl⟩ := List.mem_mapIdx.mp ha
    refine ⟨h.spec, s.puts[i], h.puts _ (List.getElem_mem hi), ?_⟩
    rw [orNow_truthy (h.created _ (List.getElem_mem hi))]
    rfl
  · obtain ⟨d, hd, rfl⟩ := List.mem_map.mp ha
    refine ⟨h.spec, fun key hkey => ⟨d, h.dels d hd, ?_, rfl, rfl⟩⟩
    exact (List.mem_singleton.mp hkey).symm
  · unfold refreshActs at ha
    rcases List.mem_cons.mp ha with rfl | ha
    · trivial
    · split at ha
      · rw [List.mem_singleton.mp ha]; trivial
      · cases ha

theorem loadActs_ordered (now : Nat → String) (s : Snap) : Ordered (loadActs env now s) := by
  have hrefresh : ∀ a b : Act, b ∈ refreshActs env s → a.MayPrecede b := by
    intro a b hb
    unfold refreshActs at hb
    rcases List.mem_cons.mp hb with rfl | hb
    · cases a <;> trivial
    · split at hb
      · rw [List.mem_singleton.mp hb]; cases a <;> trivial
      · cases hb
  have hremark : ∀ a b : Act, b ∈ remarkActs s → a.MayPrecede b := by
    intro a b hb
    obtain ⟨d, -, rfl⟩ := List.mem_map.mp hb
    cases a <;> trivial
  have hreload : ∀ a b : Act, a ∈ reloadActs now s → a.MayPrecede b := by
    intro a b ha
    obtain ⟨i, hi, rfl⟩ := List.mem_mapIdx.mp ha
    trivial
  rw [loadActs, Ordered, List.pairwise_append, List.pairwise_append]
  refine ⟨⟨ordered_of_forall fun a ha b _ => hreload a b ha,
    ordered_of_forall fun a _ b hb => hremark a b hb, fun a ha b _ => hreload a b ha⟩,
    ordered_of_forall fun a _ b hb => hrefresh a b hb, fun a _ b hb => hrefresh a b hb⟩

theorem replayActs_program (now : String → Nat → String) {snaps : List Snap}
    (hspecs : snaps.map Snap.spec = schema.tables) (h : ∀ s ∈ snaps, SnapIn env schema files s) :
    Program env schema files (replayActs env schema now snaps) := by
  refine ⟨along_of_forall grounded_mono fun a ha => ?_,
    paired_of_lines fun a ha ds table line heq => ?_, ?_⟩
  · rcases mem_replayActs ha with ⟨spec, -, rfl⟩ | ⟨s, hs, ha⟩
    · trivial
    · exact loadActs_grounded _ (h s hs) a ha
  · rcases mem_replayActs ha with ⟨spec, -, rfl⟩ | ⟨s, -, ha⟩
    · cases heq
    · rcases mem_loadActs ha with ⟨_, _, _, _, rfl⟩ | ⟨_, -, rfl⟩ | rfl | ⟨-, rfl⟩ <;> cases heq
  · have hclear : ∀ a ∈ clearActs schema, ∀ b, a.MayPrecede b := by
      intro a ha b
      obtain ⟨spec, -, rfl⟩ := List.mem_map.mp ha
      trivial
    have hnames : snaps.Pairwise fun s t => t.spec.name ≠ s.spec.name := by
      have hnd := schema.namesNodup
      rw [← hspecs, List.map_map, List.Nodup, List.pairwise_map] at hnd
      exact hnd.imp fun hne heq => hne heq.symm
    rw [replayActs, Ordered, List.pairwise_append, List.pairwise_flatMap]
    refine ⟨ordered_of_forall fun a ha b _ => hclear a ha b,
      ⟨fun s _ => loadActs_ordered _ s, hnames.imp fun hne a ha b hb => ?_⟩,
      fun a ha b _ => hclear a ha b⟩
    rcases mem_loadActs ha with ⟨_, _, _, _, rfl⟩ | ⟨_, -, rfl⟩ | rfl | ⟨-, rfl⟩
    · trivial
    · rcases mem_loadActs hb with ⟨_, _, _, _, rfl⟩ | ⟨_, -, rfl⟩ | rfl | ⟨-, rfl⟩
      · exact hne
      · trivial
      · trivial
      · trivial
    · trivial
    · trivial

theorem snapshot_in (hlines : LinesWritten schema files) (hspec : spec ∈ schema.tables) {s : Snap}
    (h : snapshot env spec files = .ok s) : SnapIn env schema files s := by
  obtain ⟨emb, -, rfl⟩ := snapshot_ok_iff.mp h
  have hperm := iterEvents_perm_tableEvents files spec.name
  exact ⟨hspec, fun m hm => (putsOf_perm hperm).mem_iff.mp hm, putsOf_created hlines hspec,
    fun d hd => (delsOf_perm hperm).mem_iff.mp hd⟩

theorem decide_prints (hprint : env.KeysPrint) {tables : String → PhysTable} {op : Op}
    {d : Decision} (h : decideOp env schema tables op = .ok d) : d.Prints env := by
  cases op with
  | insert table rows skip =>
    obtain ⟨spec, rs, -, -, rfl⟩ := decide_insert h
    trivial
  | delete table cond params =>
    obtain ⟨text, spec, ks, -, -, hks, rfl⟩ := decide_delete h
    obtain ⟨stmt, -, hselect⟩ := matchLive_ok hks
    exact hprint _ _ _ _ _ hselect

/-- Every program of the system is grounded in the log and pays for what it appends. -/
theorem programs_stable (hrt : env.RoundTrip) (hprint : env.KeysPrint)
    (hdel : ∀ spec ∈ schema.tables, "_deleted" ∉ spec.columnNames) :
    Stable env schema (fun db => LinesWritten schema db.files)
      (fun d => d.Of schema ∧ d.Prints env) (Program env schema) (SnapIn env schema) where
  init := fun l hl => absurd hl (by simp [Db.init])
  exec := by
    intro db db' a acts hdb hprog he
    have hlogs : a.Logs schema := by
      have h := hprog.grounded.1
      cases a with
      | append ds table line => exact h
      | _ => trivial
    exact ⟨exec_lines hdb hlogs he, exec_along hprog.grounded he, hprog.paired.2,
      (List.pairwise_cons.mp hprog.ordered).2⟩
  refresh spec db db' hdb he := exec_lines hdb (a := .rebuildFts spec) trivial he
  decide tables op d h := ⟨decide_of h, decide_prints hprint h⟩
  plan := by
    intro files st d acts hd h
    cases d with
    | records spec rs =>
      rcases plan_records h with rfl | ⟨emb, -, rfl⟩
      · exact ⟨trivial, trivial, List.Pairwise.nil⟩
      · exact insertActs_program hrt hd.1 (hdel spec hd.1) rs emb st
    | keys spec ks =>
      obtain rfl := Except.ok.inj h
      exact deleteActs_program hd.1 hd.2 st
  read db spec s hdb hspec h := snapshot_in hdb hspec h
  replay files now snaps hspecs h := replayActs_program now hspecs h
  acts_mono files more acts h hsub :=
    ⟨along_mono grounded_mono h.grounded hsub, h.paired, h.ordered⟩
  snap_mono files more s h hsub := ⟨h.spec, fun m hm => putsOf_mono hsub (h.puts m hm), h.created,
    fun d hd => delsOf_mono hsub (h.dels d hd)⟩

end Programs

end Seekbase
