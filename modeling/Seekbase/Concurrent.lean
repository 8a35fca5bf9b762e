/-
# Seekbase.Concurrent — rebuilds beside the worker.

A rebuild reads the log, clears the tables and loads what it has read; the worker appends and commits
all the while.  The tables equal the log again at the end if nothing falls between the two, and the
guard `Undisturbed` names, step by step, what would:

* a CLEAR that removes a row no running rebuild will load again (written after the read);
* a LOAD of a key that is in the table (the worker was faster), which ends the rebuild;
* an APPEND of a key that was put already, because its row was cleared and not loaded yet, and of a
  second tombstone, because its row was loaded and not marked yet;
* a MARK of the worker on a row that is not there and will be loaded without it;
* an operation that RAISES and leaves a line no rebuild will apply.

`Steady` is the invariant: every line of the log is a row, or a mark, or still to be applied by an
act of a party that has it.  It is about one table, and about lists of acts only; the system comes
afterwards.
-/
import Seekbase.Programs

namespace Seekbase

open JsonText Transition

/-! ## What is still to come -/

section Pending

variable (env : Env) (spec : TableSpec)

def WillInsert (acts : List Act) (key : Option String) : Prop :=
  ∃ a ∈ acts, a.InsertsKey env spec key

def WillMark (acts : List Act) (d : Del) : Prop := ∃ a ∈ acts, a.Marks env spec d

/-- A rebuild will load the row of a tombstone's key, and mark it. -/
def Redone (loads : List (List Act)) (d : Del) : Prop :=
  ∃ acts ∈ loads, WillMark env spec acts d ∧ WillInsert env spec acts (some d.key)

/-- A put line's key has its row, or a rebuild will load it. -/
def PutHeld (rows : List Row) (loads : List (List Act)) (key : Option String) : Prop :=
  (∃ r ∈ rows, r.key.text = key) ∨ ∃ acts ∈ loads, WillInsert env spec acts key

/-- A tombstone's row is marked, or a rebuild will mark it. -/
def DelHeld (rows : List Row) (loads : List (List Act)) (d : Del) : Prop :=
  (∃ r ∈ rows, r.key.text = some d.key
    ∧ (r.deletedDs ≠ none ∨ ∃ acts ∈ loads, WillMark env spec acts d))
  ∨ Redone env spec loads d

/-- The row of a put line, without a mark or with that of a tombstone for its key. -/
def FromLog (events : List (String × Members)) (r : Row) : Prop :=
  ∃ m ∈ putsOf events, ∃ base, env.lineRow spec m = .ok base
    ∧ (r = base ∨ ∃ d ∈ delsOf env.repr events, ∃ x, base.key.text = some d.key
      ∧ env.bindText (.json d.deletedAt) = some x ∧ r = base.withMark d.ds x)

/-- What a table is between its log, the acts the worker still has to do and those of the loads. -/
structure Steady (files : Files) (rows : List Row) (todo : List Act) (loads : List (List Act)) :
    Prop where
  log : LogOk env spec (tableEvents files spec.name)
  known : ∀ r ∈ rows, FromLog env spec (tableEvents files spec.name) r
  complete : ∀ m ∈ putsOf (tableEvents files spec.name),
    PutHeld env spec rows loads (env.lineKey spec m).text
      ∨ WillInsert env spec todo (env.lineKey spec m).text
  safe : ∀ d ∈ delsOf env.repr (tableEvents files spec.name),
    DelHeld env spec rows loads d ∨ WillMark env spec todo d

/-- Clearing the table loses nothing: its rows will be loaded again, and marked. -/
def ClearSafe (files : Files) (rows : List Row) (todo : List Act) (loads : List (List Act)) : Prop :=
  ∀ r ∈ rows, (∃ acts ∈ loads, WillInsert env spec acts r.key.text)
    ∧ ∀ d ∈ delsOf env.repr (tableEvents files spec.name), r.key.text = some d.key →
      WillMark env spec todo d ∨ Redone env spec loads d

instance (acts : List Act) (key : Option String) : Decidable (WillInsert env spec acts key) :=
  inferInstanceAs (Decidable (∃ a ∈ acts, _))

instance (acts : List Act) (d : Del) : Decidable (WillMark env spec acts d) :=
  inferInstanceAs (Decidable (∃ a ∈ acts, _))

instance (loads : List (List Act)) (d : Del) : Decidable (Redone env spec loads d) :=
  inferInstanceAs (Decidable (∃ acts ∈ loads, _ ∧ _))

instance (rows : List Row) (loads : List (List Act)) (key : Option String) :
    Decidable (PutHeld env spec rows loads key) :=
  inferInstanceAs (Decidable ((∃ r ∈ rows, _) ∨ ∃ acts ∈ loads, _))

instance (rows : List Row) (loads : List (List Act)) (d : Del) :
    Decidable (DelHeld env spec rows loads d) :=
  inferInstanceAs (Decidable ((∃ r ∈ rows, _ ∧ (_ ∨ ∃ acts ∈ loads, _)) ∨ _))

instance (files : Files) (rows : List Row) (todo : List Act) (loads : List (List Act)) :
    Decidable (ClearSafe env spec files rows todo loads) :=
  inferInstanceAs (Decidable (∀ r ∈ rows, (∃ acts ∈ loads, _) ∧ ∀ d ∈ delsOf _ _, _ → _))

end Pending

section Lists

variable {env : Env} {spec : TableSpec} {a : Act} {rest : List Act} {loads : List (List Act)}
  {i : Nat} {key : Option String} {d : Del} {rows : List Row}

/-- What held of some load holds of the one that is replaced, or of one of the new ones. -/
theorem exists_set {α : Type} {xs : List α} {i : Nat} {old : α} (new : α) {Q : α → Prop}
    (hi : xs[i]? = some old) (h : ∃ x ∈ xs, Q x) : Q old ∨ ∃ x ∈ xs.set i new, Q x := by
  obtain ⟨x, hx, hq⟩ := h
  obtain ⟨j, hj, rfl⟩ := List.getElem_of_mem hx
  by_cases hij : i = j
  · subst hij
    rw [List.getElem?_eq_getElem hj] at hi
    exact Or.inl (Option.some.inj hi ▸ hq)
  · refine Or.inr ⟨xs[j], List.mem_iff_getElem.mpr ⟨j, by simpa using hj, ?_⟩, hq⟩
    rw [List.getElem_set_ne hij]

theorem mem_set_new {α : Type} {xs : List α} {i : Nat} {old : α} (new : α)
    (hi : xs[i]? = some old) : new ∈ xs.set i new := by
  obtain ⟨hlt, -⟩ := List.getElem?_eq_some_iff.mp hi
  exact List.mem_iff_getElem.mpr ⟨i, by simpa using hlt, by simp⟩

/-- A load that has done an act of another kind still has the rest. -/
theorem exists_rest {P : Act → Prop} (hi : loads[i]? = some (a :: rest)) (ha : ¬ P a)
    (h : ∃ acts ∈ loads, ∃ b ∈ acts, P b) : ∃ acts ∈ loads.set i rest, ∃ b ∈ acts, P b := by
  rcases exists_set rest hi h with ⟨b, hb, hp⟩ | h
  · rcases List.mem_cons.mp hb with rfl | hb
    · exact absurd hp ha
    · exact ⟨rest, mem_set_new rest hi, b, hb, hp⟩
  · exact h

theorem will_tail {P : Act → Prop} (ha : ¬ P a) (h : ∃ b ∈ a :: rest, P b) : ∃ b ∈ rest, P b := by
  obtain ⟨b, hb, hp⟩ := h
  rcases List.mem_cons.mp hb with rfl | hb
  · exact absurd hp ha
  · exact ⟨b, hb, hp⟩

theorem Redone.advance (hi : loads[i]? = some (a :: rest)) (hm : ¬ a.Marks env spec d)
    (hn : ¬ a.InsertsKey env spec (some d.key)) (h : Redone env spec loads d) :
    Redone env spec (loads.set i rest) d := by
  rcases exists_set rest hi h with ⟨h1, h2⟩ | h
  · exact ⟨rest, mem_set_new rest hi, will_tail hm h1, will_tail hn h2⟩
  · exact h

theorem PutHeld.advance (hi : loads[i]? = some (a :: rest)) (hn : ¬ a.InsertsKey env spec key)
    (h : PutHeld env spec rows loads key) : PutHeld env spec rows (loads.set i rest) key :=
  h.imp_right (exists_rest hi hn)

theorem DelHeld.advance (hi : loads[i]? = some (a :: rest)) (hm : ¬ a.Marks env spec d)
    (hn : ¬ a.InsertsKey env spec (some d.key)) (h : DelHeld env spec rows loads d) :
    DelHeld env spec rows (loads.set i rest) d := by
  rcases h with ⟨r, hr, hk, h⟩ | h
  · exact Or.inl ⟨r, hr, hk, h.imp_right (exists_rest hi hm)⟩
  · exact Or.inr (h.advance hi hm hn)

/-- More rows hold what fewer held. -/
theorem PutHeld.more {more : List Row} (h : PutHeld env spec rows loads key) (hsub : rows ⊆ more) :
    PutHeld env spec more loads key := by
  rcases h with ⟨r, hr, hk⟩ | h
  · exact Or.inl ⟨r, hsub hr, hk⟩
  · exact Or.inr h

theorem DelHeld.more {more : List Row} (h : DelHeld env spec rows loads d) (hsub : rows ⊆ more) :
    DelHeld env spec more loads d := by
  rcases h with ⟨r, hr, hk⟩ | h
  · exact Or.inl ⟨r, hsub hr, hk⟩
  · exact Or.inr h

theorem mark_deleted (keys : List String) (ds : String) (x : Option String) {r : Row}
    (h : r.deletedDs ≠ none) : mark keys ds x r = r := by
  rw [mark, if_neg fun hm => h hm.2]

/-- Marks keep the keys. -/
theorem PutHeld.mark (keys : List String) (ds : String) (x : Option String)
    (h : PutHeld env spec rows loads key) :
    PutHeld env spec (rows.map (Seekbase.mark keys ds x)) loads key := by
  rcases h with ⟨r, hr, hk⟩ | h
  · exact Or.inl ⟨_, List.mem_map_of_mem hr, by rw [mark_key]; exact hk⟩
  · exact Or.inr h

theorem DelHeld.mark (keys : List String) (ds : String) (x : Option String)
    (h : DelHeld env spec rows loads d) :
    DelHeld env spec (rows.map (Seekbase.mark keys ds x)) loads d := by
  rcases h with ⟨r, hr, hk, h⟩ | h
  · refine Or.inl ⟨_, List.mem_map_of_mem hr, by rw [mark_key]; exact hk, ?_⟩
    rcases h with h | h
    · rw [mark_deleted keys ds x h]; exact Or.inl h
    · exact Or.inr h
  · exact Or.inr h

/-- A mark on a row that is there. -/
theorem delHeld_of_mark {keys : List String} {ds : String} {x : Option String} {r : Row}
    (hr : r ∈ rows) (hk : r.key.text = some d.key) (hkey : d.key ∈ keys) :
    DelHeld env spec (rows.map (Seekbase.mark keys ds x)) loads d := by
  refine Or.inl ⟨_, List.mem_map_of_mem hr, by rw [mark_key]; exact hk, Or.inl ?_⟩
  by_cases hd : r.deletedDs = none
  · have hin : r.key.text ∈ keys.map some := hk ▸ List.mem_map_of_mem hkey
    rw [Seekbase.mark, if_pos ⟨hin, hd⟩]
    exact Option.some_ne_none ds
  · rw [mark_deleted keys ds x hd]; exact hd

end Lists

/-! ## One table, one step -/

section Table

variable {env : Env} {schema : Schema} {spec : TableSpec} {files : Files} {rows : List Row}
  {todo rest : List Act} {loads : List (List Act)} {a : Act}

/-- An act on another table, or on none. -/
theorem Steady.idle (h : Steady env spec files rows (a :: rest) loads)
    (hn : ∀ key, ¬ a.InsertsKey env spec key) (hm : ∀ d, ¬ a.Marks env spec d) :
    Steady env spec files rows rest loads where
  log := h.log
  known := h.known
  complete := fun m hin => (h.complete m hin).imp_right (will_tail (hn _))
  safe := fun d hd => (h.safe d hd).imp_right (will_tail (hm d))

theorem Steady.advance {i : Nat} (h : Steady env spec files rows todo loads)
    (hi : loads[i]? = some (a :: rest)) (hn : ∀ key, ¬ a.InsertsKey env spec key)
    (hm : ∀ d, ¬ a.Marks env spec d) : Steady env spec files rows todo (loads.set i rest) where
  log := h.log
  known := h.known
  complete := fun m hin => (h.complete m hin).imp_left (PutHeld.advance hi (hn _))
  safe := fun d hd => (h.safe d hd).imp_left (DelHeld.advance hi (hm d) (hn _))

theorem FromLog.append {events more : List (String × Members)} {r : Row}
    (h : FromLog env spec events r) : FromLog env spec (events ++ more) r := by
  obtain ⟨m, hm, base, hb, hr⟩ := h
  refine ⟨m, ?_, base, hb, hr.imp_right fun ⟨d, hd, hrest⟩ => ⟨d, ?_, hrest⟩⟩
  · rw [putsOf_append]; exact List.mem_append_left _ hm
  · rw [delsOf_append]; exact List.mem_append_left _ hd

/-- A line of another table. -/
theorem tableEvents_line (files : Files) {l : Line} (hne : l.table ≠ spec.name) :
    tableEvents (files ++ [l]) spec.name = tableEvents files spec.name := by
  simp [tableEvents, hne]

theorem tableEvents_own {l : Line} (heq : l.table = spec.name) :
    tableEvents (files ++ [l]) spec.name = tableEvents files spec.name ++ [(l.ds, l.members)] := by
  simp [tableEvents, heq]

theorem putsOf_put {ds : String} {m : Members} (h : isTombstone m = false) :
    putsOf [(ds, m)] = [m] := by
  simp [putsOf, h]

theorem putsOf_del {ds : String} {m : Members} (h : isTombstone m = true) :
    putsOf [(ds, m)] = [] := by
  simp [putsOf, h]

theorem delsOf_put {repr : Json → String} {ds : String} {m : Members} (h : isTombstone m = false) :
    delsOf repr [(ds, m)] = [] := by
  simp [delsOf, h]

theorem delsOf_del {repr : Json → String} {ds : String} {m : Members} (h : isTombstone m = true) :
    delsOf repr [(ds, m)] = [lineDel repr ds m] := by
  simp [delsOf, h, lineDel]

/-- A clean put line whose row is still to be inserted. -/
theorem Steady.put {l : Line} (h : Steady env spec files rows todo loads)
    (heq : l.table = spec.name) (hno : isTombstone l.members = false)
    (hts : truthy (l.members.get "created_at") = true)
    (hc : Clean env spec (putsOf (tableEvents files spec.name)) l.members)
    (hwill : WillInsert env spec todo (env.lineKey spec l.members).text) :
    Steady env spec (files ++ [l]) rows todo loads := by
  have hputs : putsOf (tableEvents (files ++ [l]) spec.name)
      = putsOf (tableEvents files spec.name) ++ [l.members] := by
    rw [tableEvents_own heq, putsOf_append, putsOf_put hno]
  have hdels : delsOf env.repr (tableEvents (files ++ [l]) spec.name)
      = delsOf env.repr (tableEvents files spec.name) := by
    rw [tableEvents_own heq, delsOf_append, delsOf_put hno, List.append_nil]
  have hgood : GoodPuts env spec (putsOf (tableEvents files spec.name) ++ [l.members]) := by
    refine ⟨fun m hm => ?_, fun m hm => ?_, ?_⟩
    · rcases List.mem_append.mp hm with hm | hm
      · exact h.log.good.stores m hm
      · rw [List.mem_singleton.mp hm]; exact hc.stores
    · rcases List.mem_append.mp hm with hm | hm
      · exact h.log.good.created m hm
      · rw [List.mem_singleton.mp hm]; exact hts
    · rw [List.map_append, List.map_singleton]
      refine List.Nodup.append h.log.good.keysNodup (by simp) fun k hk hk' => ?_
      rw [List.mem_singleton.mp hk'] at hk
      exact hc.fresh hk
  refine ⟨⟨⟨hputs ▸ hgood, hdels ▸ h.log.delsBind, hdels ▸ h.log.delsNodup⟩, ?_⟩,
    fun r hr => ?_, ?_, hdels ▸ h.safe⟩
  · rw [hputs, hdels]
    intro d hd
    obtain ⟨m, hm, hk⟩ := h.log.delsPut d hd
    exact ⟨m, List.mem_append_left _ hm, hk⟩
  · rw [tableEvents_own heq]
    exact (h.known r hr).append
  · rw [hputs]
    intro m hm
    rcases List.mem_append.mp hm with hm | hm
    · exact h.complete m hm
    · rw [List.mem_singleton.mp hm]; exact Or.inr hwill

/-- A tombstone for a key that was put and has none yet. -/
structure FreshDel (env : Env) (spec : TableSpec) (events : List (String × Members)) (d : Del) :
    Prop where
  put : ∃ m ∈ putsOf events, (env.lineKey spec m).text = some d.key
  fresh : d.key ∉ (delsOf env.repr events).map Del.key

/-- Such a tombstone, whose mark is still to be set. -/
theorem Steady.del {l : Line} (h : Steady env spec files rows todo loads)
    (heq : l.table = spec.name) (hyes : isTombstone l.members = true)
    (hbind : ∃ x, env.bindText (.json (l.members.get "deleted_at")) = some x)
    (hf : FreshDel env spec (tableEvents files spec.name) (lineDel env.repr l.ds l.members))
    (hwill : WillMark env spec todo (lineDel env.repr l.ds l.members)) :
    Steady env spec (files ++ [l]) rows todo loads := by
  have hputs : putsOf (tableEvents (files ++ [l]) spec.name)
      = putsOf (tableEvents files spec.name) := by
    rw [tableEvents_own heq, putsOf_append, putsOf_del hyes, List.append_nil]
  have hdels : delsOf env.repr (tableEvents (files ++ [l]) spec.name)
      = delsOf env.repr (tableEvents files spec.name) ++ [lineDel env.repr l.ds l.members] := by
    rw [tableEvents_own heq, delsOf_append, delsOf_del hyes]
  refine ⟨⟨⟨hputs ▸ h.log.good, ?_, ?_⟩, ?_⟩, fun r hr => ?_, hputs ▸ h.complete, ?_⟩
  · rw [hdels]
    intro d hd
    rcases List.mem_append.mp hd with hd | hd
    · exact h.log.delsBind d hd
    · rw [List.mem_singleton.mp hd]; exact hbind
  · rw [hdels, List.map_append, List.map_singleton]
    refine List.Nodup.append h.log.delsNodup (by simp) fun k hk hk' => ?_
    rw [List.mem_singleton.mp hk'] at hk
    exact hf.fresh hk
  · rw [hputs, hdels]
    intro d hd
    rcases List.mem_append.mp hd with hd | hd
    · exact h.log.delsPut d hd
    · rw [List.mem_singleton.mp hd]; exact hf.put
  · rw [tableEvents_own heq]
    exact (h.known r hr).append
  · rw [hdels]
    intro d hd
    rcases List.mem_append.mp hd with hd | hd
    · exact h.safe d hd
    · rw [List.mem_singleton.mp hd]; exact Or.inr hwill

/-- A cleared table, whose rows are all still to be loaded. -/
theorem Steady.clear (h : Steady env spec files rows todo loads)
    (hsafe : ClearSafe env spec files rows todo loads) : Steady env spec files [] todo loads where
  log := h.log
  known := fun r hr => absurd hr (by simp)
  complete := by
    intro m hm
    rcases h.complete m hm with (⟨r, hr, hk⟩ | hl) | hw
    · exact Or.inl (Or.inr (hk ▸ (hsafe r hr).1))
    · exact Or.inl (Or.inr hl)
    · exact Or.inr hw
  safe := by
    intro d hd
    rcases h.safe d hd with (⟨r, hr, hk, -⟩ | hre) | hw
    · rcases (hsafe r hr).2 d hd hk with hw | hre
      · exact Or.inr hw
      · exact Or.inl (Or.inr hre)
    · exact Or.inl (Or.inr hre)
    · exact Or.inr hw

/-- The worker inserts a row of the log. -/
theorem Steady.workInsert {row : Row} (h : Steady env spec files rows (a :: rest) loads)
    (hkey : ∀ key, a.InsertsKey env spec key → row.key.text = key)
    (hm : ∀ d, ¬ a.Marks env spec d)
    (hlog : FromLog env spec (tableEvents files spec.name) row) :
    Steady env spec files (rows ++ [row]) rest loads where
  log := h.log
  known := List.forall_mem_append.mpr ⟨h.known, List.forall_mem_singleton.mpr hlog⟩
  complete := by
    intro m hin
    rcases h.complete m hin with hheld | hw
    · exact Or.inl (hheld.more (List.subset_append_left _ _))
    · by_cases ha : a.InsertsKey env spec (env.lineKey spec m).text
      · exact Or.inl (Or.inl ⟨row, by simp, hkey _ ha⟩)
      · exact Or.inr (will_tail ha hw)
  safe := by
    intro d hd
    rcases h.safe d hd with hheld | hw
    · exact Or.inl (hheld.more (List.subset_append_left _ _))
    · exact Or.inr (will_tail (hm d) hw)

/-- A rebuild loads a row of the log. -/
theorem Steady.loadInsert {i : Nat} {row : Row} (h : Steady env spec files rows todo loads)
    (hi : loads[i]? = some (a :: rest))
    (hkey : ∀ key, a.InsertsKey env spec key → row.key.text = key)
    (hm : ∀ d, ¬ a.Marks env spec d)
    (hlog : FromLog env spec (tableEvents files spec.name) row) :
    Steady env spec files (rows ++ [row]) todo (loads.set i rest) where
  log := h.log
  known := List.forall_mem_append.mpr ⟨h.known, List.forall_mem_singleton.mpr hlog⟩
  complete := by
    intro m hin
    refine (h.complete m hin).imp_left fun hheld => ?_
    by_cases ha : a.InsertsKey env spec (env.lineKey spec m).text
    · exact Or.inl ⟨row, by simp, hkey _ ha⟩
    · exact (hheld.advance hi ha).more (List.subset_append_left _ _)
  safe := by
    intro d hd
    refine (h.safe d hd).imp_left fun hheld => ?_
    rcases hheld with ⟨r, hr, hk, hmark⟩ | hre
    · exact Or.inl ⟨r, List.mem_append_left _ hr, hk, hmark.imp_right (exists_rest hi (hm d))⟩
    · by_cases ha : a.InsertsKey env spec (some d.key)
      · -- the row is there now, and the mark is still to come
        obtain ⟨acts, hacts, hmark, -⟩ := hre
        exact Or.inl ⟨row, by simp, hkey _ ha,
          Or.inr (exists_rest hi (hm d) ⟨acts, hacts, hmark⟩)⟩
      · exact Or.inr (hre.advance hi (hm d) ha)

/-- Marks that are grounded in the log leave rows of the log. -/
theorem FromLog.mark {events : List (String × Members)} {keys : List String} {ds : String}
    {at' : Val} {x : Option String} {r : Row} (h : FromLog env spec events r)
    (hg : ∀ key ∈ keys, ∃ d ∈ delsOf env.repr events, d.key = key ∧ d.ds = ds
      ∧ env.bindText at' = env.bindText (.json d.deletedAt))
    (hx : env.bindText at' = some x) : FromLog env spec events (Seekbase.mark keys ds x r) := by
  by_cases hm : r.key.text ∈ keys.map some ∧ r.deletedDs = none
  · obtain ⟨m, hin, base, hb, hr⟩ := h
    have hbase : r = base := by
      rcases hr with hr | ⟨d, -, y, -, -, hr⟩
      · exact hr
      · rw [hr] at hm
        exact absurd hm.2 (Option.some_ne_none _)
    obtain ⟨key, hkey, htext⟩ := List.mem_map.mp hm.1
    obtain ⟨d, hd, hdk, hds, hbind⟩ := hg key hkey
    refine ⟨m, hin, base, hb, Or.inr ⟨d, hd, x, ?_, hbind ▸ hx, ?_⟩⟩
    · rw [← hbase, ← htext, hdk]
    · rw [Seekbase.mark, if_pos hm, hbase, hds]; rfl
  · rw [Seekbase.mark, if_neg hm]; exact h

section Mark

variable {other : TableSpec} {keys : List String} {ds : String} {at' : Val} {x : Option String}

/-- A soft delete whose time binds to nothing has no keys to mark. -/
theorem unbound_not_marks (he : exec env (.softDelete other keys ds at') db = .ok db')
    (hx : env.bindText at' = none) (d : Del) :
    ¬ (Act.softDelete other keys ds at').Marks env spec d := by
  intro hmark
  rcases exec_softDelete_iff.mp he with ⟨hk, -⟩ | ⟨-, x, hx', -⟩
  · rw [hk] at hmark
    cases hmark.2.1
  · rw [hx] at hx'
    cases hx'

theorem softDelete_not_inserts {key : Option String} :
    ¬ (Act.softDelete other keys ds at').InsertsKey env spec key := fun h => h

/-- The worker marks rows that are there, or will be loaded with their mark. -/
theorem Steady.workMark
    (h : Steady env spec files rows (.softDelete other keys ds at' :: rest) loads)
    (hg : ∀ key ∈ keys, ∃ d ∈ delsOf env.repr (tableEvents files spec.name), d.key = key
      ∧ d.ds = ds ∧ env.bindText at' = env.bindText (.json d.deletedAt))
    (hx : env.bindText at' = some x)
    (hguard : ∀ d ∈ delsOf env.repr (tableEvents files spec.name),
      (Act.softDelete other keys ds at').Marks env spec d →
        (∃ r ∈ rows, r.key.text = some d.key) ∨ Redone env spec loads d) :
    Steady env spec files (rows.map (mark keys ds x)) rest loads where
  log := h.log
  known := by
    intro r hr
    obtain ⟨old, hold, rfl⟩ := List.mem_map.mp hr
    exact (h.known old hold).mark hg hx
  complete := by
    intro m hin
    rcases h.complete m hin with hheld | hw
    · exact Or.inl (hheld.mark keys ds x)
    · exact Or.inr (will_tail softDelete_not_inserts hw)
  safe := by
    intro d hd
    rcases h.safe d hd with hheld | hw
    · exact Or.inl (hheld.mark keys ds x)
    · by_cases ha : (Act.softDelete other keys ds at').Marks env spec d
      · rcases hguard d hd ha with ⟨r, hr, hk⟩ | hre
        · exact Or.inl (delHeld_of_mark hr hk ha.2.1)
        · exact Or.inl (Or.inr hre)
      · exact Or.inr (will_tail ha hw)

/-- A rebuild marks the rows it has loaded. -/
theorem Steady.loadMark {i : Nat} (h : Steady env spec files rows todo loads)
    (hi : loads[i]? = some (.softDelete other keys ds at' :: rest))
    (hord : ∀ b ∈ rest, (Act.softDelete other keys ds at').MayPrecede b)
    (hg : ∀ key ∈ keys, ∃ d ∈ delsOf env.repr (tableEvents files spec.name), d.key = key
      ∧ d.ds = ds ∧ env.bindText at' = env.bindText (.json d.deletedAt))
    (hx : env.bindText at' = some x) :
    Steady env spec files (rows.map (mark keys ds x)) todo (loads.set i rest) where
  log := h.log
  known := by
    intro r hr
    obtain ⟨old, hold, rfl⟩ := List.mem_map.mp hr
    exact (h.known old hold).mark hg hx
  complete := by
    intro m hin
    exact (h.complete m hin).imp_left fun hheld => (hheld.advance hi softDelete_not_inserts).mark keys ds x
  safe := by
    intro d hd
    refine (h.safe d hd).imp_left fun hheld => ?_
    by_cases ha : (Act.softDelete other keys ds at').Marks env spec d
    · rcases hheld with ⟨r, hr, hk, -⟩ | hre
      · exact delHeld_of_mark hr hk ha.2.1
      · -- the load that redoes the row is another one: this one has inserted all it will
        refine Or.inr ((exists_set rest hi hre).resolve_left ?_)
        rintro ⟨-, b, hb, hins⟩
        rcases List.mem_cons.mp hb with rfl | hb
        · exact hins
        · have hprec := hord b hb
          cases b with
          | insert third r search dd ca => exact hprec (hins.1.trans ha.1.symm)
          | _ => exact hins
    · exact (hheld.advance hi ha softDelete_not_inserts).mark keys ds x

end Mark

theorem Steady.otherLine {l : Line} (h : Steady env spec files rows todo loads)
    (hne : l.table ≠ spec.name) : Steady env spec (files ++ [l]) rows todo loads := by
  have heq := tableEvents_line files hne
  exact ⟨heq ▸ h.log, heq ▸ h.known, heq ▸ h.complete, heq ▸ h.safe⟩

end Table

/-! ## What must not come between -/

section Guard

variable (env : Env) (schema : Schema) (db : Db) (todo : List Act) (loads : List (List Act))

/-- An act of the worker that meets the log and the loads as its operation expects them. -/
def Act.WorkSafe : Act → Prop
  | .append ds table line => ∀ spec ∈ schema.tables, spec.name = table →
    ∀ m ∈ line.toMembers?,
      (isTombstone m = false → Clean env spec (putsOf (tableEvents db.files spec.name)) m)
      ∧ (isTombstone m = true →
        FreshDel env spec (tableEvents db.files spec.name) (lineDel env.repr ds m))
  | .softDelete other keys ds deletedAt => ∀ spec ∈ schema.tables, spec.name = other.name →
    ∀ d ∈ delsOf env.repr (tableEvents db.files spec.name),
      (Act.softDelete other keys ds deletedAt).Marks env spec d →
        (∃ r ∈ db.shown spec.name, r.key.text = some d.key) ∨ Redone env spec loads d
  | .clear other => ∀ spec ∈ schema.tables, spec.name = other.name →
    ClearSafe env spec db.files (db.shown spec.name) todo loads
  | _ => True

/-- An act of a rebuild that meets the log and the worker as its read left them.  The side dataset
takes its rows; a rebuild appends nothing. -/
def Act.LoadSafe : Act → Prop
  | .clear other => ∀ spec ∈ schema.tables, spec.name = other.name →
    ClearSafe env spec db.files (db.shown spec.name) todo loads
  | .insert other r _ ds ca => ∀ row ∈ (env.stored other r ds ca).toOption,
    row.key ∉ (db.shown other.name).map Row.key
  | .indexOverwrite other rows => env.copies other.name rows = true
  | .append _ _ _ | .indexAppend _ _ => False
  | _ => True

/-- Every line of the log is applied, or a rebuild will apply it. -/
def AllHeld : Prop := ∀ spec ∈ schema.tables,
  (∀ m ∈ putsOf (tableEvents db.files spec.name),
    PutHeld env spec (db.shown spec.name) loads (env.lineKey spec m).text)
  ∧ ∀ d ∈ delsOf env.repr (tableEvents db.files spec.name),
    DelHeld env spec (db.shown spec.name) loads d

instance (events : List (String × Members)) (spec : TableSpec) (d : Del) :
    Decidable (FreshDel env spec events d) :=
  decidable_of_iff ((∃ m ∈ putsOf events, (env.lineKey spec m).text = some d.key)
    ∧ d.key ∉ (delsOf env.repr events).map Del.key) ⟨fun h => ⟨h.1, h.2⟩, fun h => ⟨h.1, h.2⟩⟩

instance : (a : Act) → Decidable (a.WorkSafe env schema db todo loads)
  | .append _ table line => inferInstanceAs (Decidable (∀ spec ∈ schema.tables, spec.name = table →
      ∀ m ∈ line.toMembers?, (isTombstone m = false → _) ∧ (isTombstone m = true → _)))
  | .softDelete other _ _ _ => inferInstanceAs (Decidable (∀ spec ∈ schema.tables,
      spec.name = other.name → ∀ d ∈ delsOf _ _, _ → (∃ r ∈ db.shown spec.name, _) ∨ _))
  | .clear other => inferInstanceAs (Decidable (∀ spec ∈ schema.tables, spec.name = other.name → _))
  | .insert _ _ _ _ _ | .rebuildFts _ | .indexAppend _ _ | .indexOverwrite _ _ =>
    inferInstanceAs (Decidable True)

instance : (a : Act) → Decidable (a.LoadSafe env schema db todo loads)
  | .clear other => inferInstanceAs (Decidable (∀ spec ∈ schema.tables, spec.name = other.name → _))
  | .insert other r _ ds ca =>
    inferInstanceAs (Decidable (∀ row ∈ (env.stored other r ds ca).toOption, _))
  | .indexOverwrite other rows => inferInstanceAs (Decidable (env.copies other.name rows = true))
  | .append _ _ _ | .indexAppend _ _ => inferInstanceAs (Decidable False)
  | .softDelete _ _ _ _ | .rebuildFts _ => inferInstanceAs (Decidable True)

instance : Decidable (AllHeld env schema db loads) :=
  inferInstanceAs (Decidable (∀ spec ∈ schema.tables, (∀ m ∈ putsOf _, _) ∧ ∀ d ∈ delsOf _ _, _))

end Guard

section OneAct

variable {env : Env} {schema : Schema} {spec : TableSpec} {db db' : Db} {todo rest : List Act}
  {loads : List (List Act)} {a : Act}

theorem fromLog_stored {other : TableSpec} (hother : other ∈ schema.tables)
    (hspec : spec ∈ schema.tables) (hn : other.name = spec.name) {r : Record} {ds ca : Val}
    {row : Row} (hg : ∃ m ∈ putsOf (tableEvents db.files other.name),
      env.stored other r ds ca = env.lineRow other m)
    (hrow : env.stored other r ds ca = .ok row) :
    FromLog env spec (tableEvents db.files spec.name) row := by
  obtain rfl := schema.eq_of_name hother hspec hn
  obtain ⟨m, hm, heq⟩ := hg
  exact ⟨m, hm, row, heq ▸ hrow, Or.inl rfl⟩

theorem insertsKey_row {other : TableSpec} {r : Record} {search : List Search} {ds ca : Val}
    {row : Row} (hrow : env.stored other r ds ca = .ok row) {key : Option String}
    (h : (Act.insert other r search ds ca).InsertsKey env spec key) : row.key.text = key := by
  have hk := h.2
  rw [hrow] at hk
  exact Option.some.inj hk

theorem exec_files_same (he : exec env a db = .ok db') (h : a.lines = []) :
    db'.files = db.files := by
  rw [exec_files he, h, List.append_nil]

/-- One act of the worker. -/
theorem Steady.work (h : Steady env spec db.files (db.shown spec.name) (a :: rest) loads)
    (hspec : spec ∈ schema.tables) (hg : a.Grounded env schema db.files)
    (hpays : a.Pays env schema rest) (hsafe : a.WorkSafe env schema db rest loads)
    (he : exec env a db = .ok db') :
    Steady env spec db'.files (db'.shown spec.name) rest loads := by
  rw [exec_shown he]
  cases a with
  | append ds table line =>
    obtain ⟨m, hm, rfl⟩ := exec_append_iff.mp he
    have hrest := h.idle (fun _ hno => hno) (fun _ hno => hno)
    by_cases ht : table = spec.name
    · subst ht
      obtain ⟨hclean, hfresh⟩ := hsafe spec hspec rfl m hm
      obtain ⟨hput, hdel⟩ := hpays m hm spec hspec rfl
      obtain ⟨other, hother, hname, hw⟩ := hg
      cases htomb : isTombstone m with
      | false =>
        have hc := hclean htomb
        obtain ⟨row, hrow, -⟩ := hc.stores
        have hts : truthy (m.get "created_at") = true := by
          cases hw with
          | put r ts hts => rw [put_createdAt hm]; exact truthy_str hts
          | del k ts => rw [tombstone_isTombstone hm] at htomb; cases htomb
        refine hrest.put rfl htomb hts hc ?_
        have hwill := hput htomb row hrow
        rw [lineRow_key hrow] at hwill
        exact hwill
      | true =>
        have hbind : ∃ x, env.bindText (.json (m.get "deleted_at")) = some x := by
          have hlog : LinesWritten schema [⟨ds, spec.name, m⟩] := by
            intro l hl
            obtain rfl := List.mem_singleton.mp hl
            exact ⟨other, hother, hname, line, hw, hm⟩
          have hev : (ds, m) ∈ iterEvents [⟨ds, spec.name, m⟩] spec.name :=
            mem_iterEvents.mpr ⟨⟨ds, spec.name, m⟩, by simp, rfl, rfl, rfl⟩
          exact delsOf_bind hlog spec (lineDel env.repr ds m)
            (mem_delsOf.mpr ⟨m, hev, htomb, rfl⟩)
        exact hrest.del rfl htomb hbind (hfresh htomb) (hdel htomb)
    · exact hrest.otherLine ht
  | insert other r search ds ca =>
    obtain ⟨row', t, hrow', -⟩ := exec_insert_iff.mp he
    have hrow := newRow_shown hrow'
    rw [exec_files_same he rfl]
    by_cases hn : other.name = spec.name
    · rw [Act.effect, if_pos hn, hrow]
      exact h.workInsert (fun _ hk => insertsKey_row hrow hk) (fun _ hno => hno)
        (fromLog_stored hg.1 hspec hn hg.2 hrow)
    · rw [Act.effect, if_neg hn]
      exact h.idle (fun _ hk => hn hk.1) (fun _ hno => hno)
  | softDelete other keys ds at' =>
    rw [exec_files_same he rfl]
    cases hx : env.bindText at' with
    | none =>
      simp only [Act.effect, hx]
      exact h.idle (fun _ hno => hno) (unbound_not_marks he hx)
    | some x =>
      by_cases hn : other.name = spec.name
      · obtain rfl := schema.eq_of_name hg.1 hspec hn
        simp only [Act.effect, hx, if_true]
        exact h.workMark hg.2 hx (hsafe other hspec rfl)
      · simp only [Act.effect, hx, if_neg hn]
        exact h.idle (fun _ hno => hno) (fun _ hmark => hn hmark.1)
  | clear other =>
    rw [exec_files_same he rfl]
    have hrest := h.idle (fun _ hno => hno) (fun _ hno => hno)
    by_cases hn : other.name = spec.name
    · rw [Act.effect, if_pos hn]
      exact hrest.clear (hsafe spec hspec hn.symm)
    · rw [Act.effect, if_neg hn]; exact hrest
  | rebuildFts other | indexAppend other _ | indexOverwrite other _ =>
    rw [exec_files_same he rfl]
    exact h.idle (fun _ hno => hno) (fun _ hno => hno)

/-- One act of a rebuild. -/
theorem Steady.load {i : Nat} (h : Steady env spec db.files (db.shown spec.name) todo loads)
    (hi : loads[i]? = some (a :: rest)) (hspec : spec ∈ schema.tables)
    (hg : a.Grounded env schema db.files) (hord : ∀ b ∈ rest, a.MayPrecede b)
    (hsafe : a.LoadSafe env schema db todo loads) (he : exec env a db = .ok db') :
    Steady env spec db'.files (db'.shown spec.name) todo (loads.set i rest) := by
  rw [exec_shown he]
  cases a with
  | append ds table line | indexAppend other _ => exact absurd hsafe (fun hno => hno)
  | insert other r search ds ca =>
    rw [exec_files_same he rfl]
    obtain ⟨row', t, hrow', -⟩ := exec_insert_iff.mp he
    have hrow := newRow_shown hrow'
    by_cases hn : other.name = spec.name
    · rw [Act.effect, if_pos hn, hrow]
      exact h.loadInsert hi (fun _ hk => insertsKey_row hrow hk) (fun _ hno => hno)
        (fromLog_stored hg.1 hspec hn hg.2 hrow)
    · rw [Act.effect, if_neg hn]
      exact h.advance hi (fun _ hk => hn hk.1) (fun _ hno => hno)
  | softDelete other keys ds at' =>
    rw [exec_files_same he rfl]
    cases hx : env.bindText at' with
    | none =>
      simp only [Act.effect, hx]
      exact h.advance hi (fun _ hno => hno) (unbound_not_marks he hx)
    | some x =>
      by_cases hn : other.name = spec.name
      · obtain rfl := schema.eq_of_name hg.1 hspec hn
        simp only [Act.effect, hx, if_true]
        exact h.loadMark hi hord hg.2 hx
      · simp only [Act.effect, hx, if_neg hn]
        exact h.advance hi (fun _ hno => hno) (fun _ hmark => hn hmark.1)
  | clear other =>
    rw [exec_files_same he rfl]
    by_cases hn : other.name = spec.name
    · rw [Act.effect, if_pos hn]
      exact (h.clear (hsafe spec hspec hn.symm)).advance hi (fun _ hno => hno) (fun _ hno => hno)
    · rw [Act.effect, if_neg hn]
      exact h.advance hi (fun _ hno => hno) (fun _ hno => hno)
  | rebuildFts other | indexOverwrite other _ =>
    rw [exec_files_same he rfl]
    exact h.advance hi (fun _ hno => hno) (fun _ hno => hno)

/-- An act of a rebuild that nothing has come between does not raise. -/
theorem load_ok_of_safe
    (hsteady : ∀ spec ∈ schema.tables, Steady env spec db.files (db.shown spec.name) todo loads)
    (hg : a.Grounded env schema db.files) (hsafe : a.LoadSafe env schema db todo loads) :
    ∃ db', exec env a db = .ok db' := by
  cases a with
  | append ds table line | indexAppend other rows => exact absurd hsafe (fun hno => hno)
  | insert other r search ds ca =>
    obtain ⟨hother, m, hm, heq⟩ := hg
    obtain ⟨row, hrow, h0⟩ := (hsteady other hother).log.good.stores m hm
    rw [← heq] at hrow
    exact exec_insert_ok search hrow h0 (hsafe row (by rw [hrow]; rfl))
  | softDelete other keys ds at' =>
    by_cases hk : keys = []
    · exact ⟨db, exec_softDelete_iff.mpr (Or.inl ⟨hk, rfl⟩)⟩
    · obtain ⟨key, hkey⟩ := List.exists_mem_of_ne_nil keys hk
      obtain ⟨d, hd, -, -, hbind⟩ := hg.2 key hkey
      obtain ⟨x, hx⟩ := (hsteady other hg.1).log.delsBind d hd
      exact ⟨_, exec_softDelete_iff.mpr (Or.inr ⟨hk, x, hbind ▸ hx, rfl⟩)⟩
  | clear other => exact ⟨_, rfl⟩
  | rebuildFts other => exact ⟨_, rfl⟩
  | indexOverwrite other rows => exact ⟨_, if_pos hsafe⟩

end OneAct

/-! ## The system -/

/-- The acts the worker still has to do. -/
def System.todo (s : System) : List Act :=
  match s.worker with
  | .acting _ _ todo => todo
  | _ => []

/-- The acts a rebuild still has to do. -/
def Rebuild.todo : Rebuild → List Act
  | .acting _ todo => todo
  | _ => []

def System.loads (s : System) : List (List Act) := s.rebuilds.map Rebuild.todo

/-- A step that comes between no read and its load, and no line and its act.  Runs that a fault, a
cancel or a crash cuts short are left out. -/
def Undisturbed (env : Env) (schema : Schema) (s : System) : Label → Prop
  | .write => ∀ a ∈ s.todo.head?,
    ((exec env a s.db).isOk = true → a.WorkSafe env schema s.db s.todo.tail s.loads)
    ∧ ((exec env a s.db).isOk = false → AllHeld env schema s.db s.loads)
  | .replay i => ∀ a ∈ (s.loads[i]?.getD []).head?, a.LoadSafe env schema s.db s.todo s.loads
  | .fault | .stop _ | .crash => False
  | _ => True

instance (env : Env) (schema : Schema) (s : System) :
    (l : Label) → Decidable (Undisturbed env schema s l)
  | .write => inferInstanceAs (Decidable (∀ a ∈ s.todo.head?, (_ → _) ∧ (_ → _)))
  | .replay i => inferInstanceAs (Decidable (∀ a ∈ (s.loads[i]?.getD []).head?, _))
  | .fault | .stop _ | .crash => inferInstanceAs (Decidable False)
  | .take _ | .decide | .plan _ | .finish | .refresh | .refreshFault | .settle | .rebuild _
  | .read _ => inferInstanceAs (Decidable True)

/-- An error of the embedder, or of what it returns. -/
def Exc.OfEmbedder : Exc → Prop
  | .embedder _ | .embedderDim _ _ | .embedderShort => True
  | _ => False

structure System.Steady (env : Env) (schema : Schema) (s : System) : Prop where
  tables : ∀ spec ∈ schema.tables,
    Seekbase.Steady env spec s.db.files (s.db.shown spec.name) s.todo s.loads
  failures : ∀ e, Rebuild.failed e ∈ s.rebuilds → e.OfEmbedder

section Errors

variable {env : Env} {spec : TableSpec}

theorem placeVecs_error {e : Embedder} {texts : List (Option String)} {vs : List Vec} {x : Exc}
    (h : placeVecs e texts vs = .error x) : x.OfEmbedder := by
  induction texts generalizing vs with
  | nil => cases h
  | cons t texts ih =>
    cases t with
    | none => exact ih (map_error_iff.mp h)
    | some t =>
      cases vs with
      | nil => cases h; trivial
      | cons v vs => exact ih (map_error_iff.mp h)

theorem embedAll_error {e : Embedder} {texts : List String} {x : Exc}
    (h : e.embedAll texts = .error x) : x.OfEmbedder := by
  unfold Embedder.embedAll at h
  split at h
  · cases h; trivial
  · split at h <;> cases h
    trivial

theorem embedColumn_error {e : Embedder} {texts : List (Option String)} {x : Exc}
    (h : embedColumn e texts = .error x) : x.OfEmbedder := by
  simp only [embedColumn] at h
  split at h
  · exact placeVecs_error h
  · rcases bind_error_iff.mp h with h | ⟨vs, -, h⟩
    · exact embedAll_error h
    · exact placeVecs_error h

/-- Reading a table raises nothing but what embedding it raises. -/
theorem snapshot_error {files : Files} {x : Exc} (h : snapshot env spec files = .error x) :
    x.OfEmbedder := by
  have hrec := map_error_iff.mp h
  unfold embedRecords at hrec
  split at hrec
  · cases hrec
  · obtain ⟨col, -, hcol⟩ := mapM_error hrec
    rcases bind_error_iff.mp hcol with hcol | ⟨column, -, hcol⟩
    · exact embedColumn_error hcol
    · cases hcol

end Errors

section Regroup

variable {env : Env} {spec : TableSpec} {files : Files} {rows : List Row} {todo more : List Act}
  {loads other : List (List Act)}

/-- Loads that have acts left are what counts. -/
theorem Steady.regroup (h : Steady env spec files rows todo loads)
    (hsub : ∀ acts ∈ loads, acts ≠ [] → acts ∈ other) : Steady env spec files rows todo other := by
  have hone : ∀ Q : Act → Prop, (∃ acts ∈ loads, ∃ a ∈ acts, Q a) →
      ∃ acts ∈ other, ∃ a ∈ acts, Q a := by
    rintro Q ⟨acts, hacts, a, ha, hq⟩
    exact ⟨acts, hsub acts hacts (List.ne_nil_of_mem ha), a, ha, hq⟩
  refine ⟨h.log, h.known, fun m hm => ?_, fun d hd => ?_⟩
  · exact (h.complete m hm).imp_left fun hheld => hheld.imp_right (hone _)
  · refine (h.safe d hd).imp_left fun hheld => ?_
    rcases hheld with ⟨r, hr, hk, hmark⟩ | ⟨acts, hacts, ⟨a, ha, hq⟩, hins⟩
    · exact Or.inl ⟨r, hr, hk, hmark.imp_right (hone _)⟩
    · exact Or.inr ⟨acts, hsub acts hacts (List.ne_nil_of_mem ha), ⟨a, ha, hq⟩, hins⟩

/-- A worker that had nothing to do takes on a program. -/
theorem Steady.takeOn (h : Steady env spec files rows [] loads) :
    Steady env spec files rows more loads where
  log := h.log
  known := h.known
  complete := fun m hm => Or.inl ((h.complete m hm).resolve_right fun ⟨_, ha, _⟩ => by cases ha)
  safe := fun d hd => Or.inl ((h.safe d hd).resolve_right fun ⟨_, ha, _⟩ => by cases ha)

/-- A worker that drops what it had to do, once that is held by others. -/
theorem Steady.drop (h : Steady env spec files rows todo loads)
    (hputs : ∀ m ∈ putsOf (tableEvents files spec.name),
      PutHeld env spec rows loads (env.lineKey spec m).text)
    (hdels : ∀ d ∈ delsOf env.repr (tableEvents files spec.name), DelHeld env spec rows loads d) :
    Steady env spec files rows [] loads where
  log := h.log
  known := h.known
  complete := fun m hm => Or.inl (hputs m hm)
  safe := fun d hd => Or.inl (hdels d hd)

end Regroup

section Steps

variable {env : Env} {schema : Schema} {s t : System}

theorem loads_get {i : Nat} {r : Rebuild} (h : s.rebuilds[i]? = some r) :
    s.loads[i]? = some r.todo := by
  rw [System.loads, List.getElem?_map, h]; rfl

theorem setRebuild_loads (i : Nat) (r : Rebuild) :
    (s.setRebuild i r).loads = s.loads.set i r.todo := List.map_set

/-- A rebuild that had no acts left, or none yet, is replaced. -/
theorem System.Steady.setRebuild {i : Nat} {old new : Rebuild} (h : s.Steady env schema)
    (hi : s.rebuilds[i]? = some old) (htodo : old.todo = [])
    (hfail : ∀ e, new = .failed e → e.OfEmbedder) : (s.setRebuild i new).Steady env schema where
  tables := by
    intro spec hspec
    show Seekbase.Steady env spec s.db.files _ s.todo _
    rw [setRebuild_loads]
    refine (h.tables spec hspec).regroup fun acts hacts hne => ?_
    rcases exists_set new.todo (Q := (· = acts)) (loads_get hi) ⟨acts, hacts, rfl⟩ with heq | ⟨x, hx, rfl⟩
    · exact absurd (heq.symm.trans htodo) hne
    · exact hx
  failures := by
    intro e he
    rcases List.mem_or_eq_of_mem_set he with hold | heq
    · exact h.failures e hold
    · exact hfail e heq.symm

/-- What the worker has to do is all that changes, and it had nothing to do. -/
theorem System.Steady.worker {w : Worker} (h : s.Steady env schema) (hidle : s.todo = []) :
    System.Steady env schema { s with worker := w } where
  tables := by
    intro spec hspec
    have hs := h.tables spec hspec
    rw [hidle] at hs
    exact hs.takeOn
  failures := h.failures

/-- The parties run programs: what holds of every run, disturbed or not. -/
abbrev System.Programmed (env : Env) (schema : Schema) (s : System) : Prop :=
  s.Holds schema (fun db => LinesWritten schema db.files) (fun d => d.Of schema ∧ d.Prints env)
    (Program env schema) (SnapIn env schema)

theorem write_steady (hh : s.Programmed env schema) (h : s.Steady env schema)
    (hg : Undisturbed env schema s .write)
    (hs : step env schema s .write = some t) : t.Steady env schema := by
  cases step_moves (fun i hi => by cases hi) hs with
  | @write fts done rest a db hw he =>
    have hprog := hh.worker
    have htodo : s.todo = a :: rest := by simp only [System.todo, hw]
    have hsafe := hg a (by rw [htodo]; rfl)
    rw [htodo] at hsafe
    rw [hw] at hprog
    have hwork := hsafe.1 (by rw [he]; rfl)
    refine ⟨fun spec hspec => ?_, h.failures⟩
    have hspecs := h.tables spec hspec
    rw [htodo] at hspecs
    exact hspecs.work hspec hprog.grounded.1 hprog.paired.1 hwork he
  | @refuse fts done rest a e hw he =>
    have htodo : s.todo = a :: rest := by simp only [System.todo, hw]
    have hsafe := hg a (by rw [htodo]; rfl)
    rw [htodo] at hsafe
    have hheld := hsafe.2 (by rw [he]; rfl)
    exact ⟨fun spec hspec => (h.tables spec hspec).drop (hheld spec hspec).1 (hheld spec hspec).2,
      h.failures⟩
  | skip hw ht hl => rcases hl with hl | hl <;> cases hl
  | background hl => exact hl.elim

theorem replay_steady (hh : s.Programmed env schema) (h : s.Steady env schema) {i : Nat}
    (hg : Undisturbed env schema s (.replay i))
    (hs : step env schema s (.replay i) = some t) : t.Steady env schema := by
  obtain ⟨r, hi, hr⟩ := Option.bind_eq_some_iff.mp hs
  cases replay_replays hr with
  | start | finish => exact h.setRebuild hi rfl (fun e heq => by cases heq)
  | @act snaps a rest db he =>
    have hprog := hh.rebuilds _ (List.mem_of_getElem? hi)
    have hsafe := hg a (by rw [loads_get hi]; rfl)
    refine ⟨fun spec hspec => ?_, fun e hmem => ?_⟩
    · rw [setRebuild_loads]
      exact (h.tables spec hspec).load (loads_get hi) hspec hprog.grounded.1
        (List.pairwise_cons.mp hprog.ordered).1 hsafe he
    · rcases List.mem_or_eq_of_mem_set hmem with hold | heq
      · exact h.failures e hold
      · cases heq
  | @refuse snaps a rest e he =>
    -- a safe act does not fail
    have hprog := hh.rebuilds _ (List.mem_of_getElem? hi)
    have hsafe := hg a (by rw [loads_get hi]; rfl)
    obtain ⟨db, hok⟩ := load_ok_of_safe h.tables hprog.grounded.1 hsafe
    rw [hok] at he
    cases he

/-- A rebuild that starts or reads has nothing to load yet. -/
theorem background_steady (h : s.Steady env schema) {l : Label} (hl : l.Background)
    (hg : Undisturbed env schema s l) (hs : step env schema s l = some t) :
    t.Steady env schema := by
  obtain ⟨now, -, rfl⟩ | ⟨i, now, spec, todo, snaps, -, hi, rfl⟩ | ⟨i, rfl, -⟩ :=
    background_cases hl hs
  · refine ⟨fun spec hspec => (h.tables spec hspec).regroup fun acts hacts _ => ?_, fun e he => ?_⟩
    · show acts ∈ (s.rebuilds ++ _).map Rebuild.todo
      rw [List.map_append]
      exact List.mem_append_left _ hacts
    · rcases List.mem_append.mp he with he | he
      · exact h.failures e he
      · cases List.mem_singleton.mp he
  · refine h.setRebuild hi rfl fun e heq => ?_
    unfold Rebuild.read at heq
    split at heq
    · cases heq
    · next e' he' =>
      cases heq
      exact snapshot_error he'
  · exact absurd hg (fun hno => hno)

/-- Every step that meets the guard keeps every table steady. -/
theorem step_steady (hh : s.Programmed env schema) (h : s.Steady env schema) {l : Label}
    (hg : Undisturbed env schema s l)
    (hs : step env schema s l = some t) : t.Steady env schema := by
  obtain ⟨i, r, rfl, hi, hr⟩ | hm := step_cases hs
  · exact replay_steady hh h hg hs
  · cases hm with
    | write | refuse => exact write_steady hh h hg hs
    | fault | crash => exact absurd hg (fun hno => hno)
    | take hw | decide hw | plan hw => exact h.worker (by simp only [System.todo, hw])
    | finish hw =>
      have hidle : s.todo = [] := by simp only [System.todo, hw]
      exact ⟨fun spec hspec => (hidle ▸ h.tables spec hspec :), h.failures⟩
    | @refresh _ _ db hw ht he =>
      refine ⟨fun spec hspec => ?_, h.failures⟩
      show Seekbase.Steady env spec db.files (db.shown spec.name) s.todo s.loads
      rw [exec_files_same he rfl, exec_shown he]
      exact h.tables spec hspec
    | skip | settle => exact ⟨h.tables, h.failures⟩
    | background hl => exact background_steady h hl hg hs

/-- The lines of the operation that runs. -/
def Worker.wrote : Worker → List Line
  | .acting _ done _ => done.flatMap Act.lines
  | _ => []

/-- Acknowledged lines are lines of the log, each once and in order. -/
def System.AckedInLog (s : System) : Prop :=
  (s.acked ++ s.executed ++ s.worker.wrote).Sublist s.db.files

/-- A worker that has written nothing that counts. -/
theorem System.AckedInLog.worker (h : s.AckedInLog) {w : Worker} (hw : w.wrote = []) :
    System.AckedInLog { s with worker := w } := by
  show (s.acked ++ s.executed ++ w.wrote).Sublist s.db.files
  rw [hw, List.append_nil]
  exact (List.sublist_append_left _ _).trans h

/-- A step of another party. -/
theorem System.AckedInLog.grow (h : s.AckedInLog) {ls : List Line} (hworker : t.worker = s.worker)
    (hacked : t.acked = s.acked) (hexec : t.executed = s.executed)
    (hfiles : t.db.files = s.db.files ++ ls) : t.AckedInLog := by
  rw [System.AckedInLog, hworker, hacked, hexec, hfiles]
  exact h.trans (List.sublist_append_left _ _)

theorem step_acked {l : Label} (h : s.AckedInLog) (hs : step env schema s l = some t) :
    t.AckedInLog := by
  have hfiles := step_files hs
  obtain ⟨i, r, rfl, hi, hr⟩ | hm := step_cases hs
  · cases hr with
    | start | act | refuse | finish => exact h.grow rfl rfl rfl hfiles
  · cases hm with
    | take | refuse | fault => exact h.worker rfl
    | decide hw =>
      apply h.worker
      unfold Worker.decide
      split <;> rfl
    | plan hw =>
      apply h.worker
      unfold Worker.plan
      split <;> rfl
    | @write fts done rest a db hw he =>
      have hwrote : s.worker.wrote = done.flatMap Act.lines := by rw [hw]; rfl
      show (s.acked ++ s.executed ++ (done ++ [a]).flatMap Act.lines).Sublist db.files
      rw [exec_files he, List.flatMap_append, ← List.append_assoc, ← hwrote]
      exact h.append (by simp)
    | @finish fts done hw =>
      have hwrote : s.worker.wrote = done.flatMap Act.lines := by rw [hw]; rfl
      show (s.acked ++ (s.executed ++ done.flatMap Act.lines) ++ []).Sublist s.db.files
      rw [List.append_nil, ← List.append_assoc, ← hwrote]
      exact h
    | refresh | skip | background => exact h.grow rfl rfl rfl hfiles
    | settle hw ht =>
      show (s.acked ++ s.executed ++ [] ++ s.worker.wrote).Sublist s.db.files
      rw [List.append_nil]
      exact h
    | crash =>
      show (s.acked ++ [] ++ []).Sublist s.db.files
      rw [List.append_nil, List.append_nil]
      exact (List.sublist_append_left _ _).trans ((List.sublist_append_left _ _).trans h)

end Steps

/-! ## Settled -/

section Settled

variable {env : Env} {schema : Schema} {spec : TableSpec} {db : Db} {loads : List (List Act)}

/-- A row's key is the key of its put line. -/
theorem FromLog.key {events : List (String × Members)} {r : Row} {m : Members} {base : Row}
    (hb : env.lineRow spec m = .ok base)
    (hr : r = base ∨ ∃ d ∈ delsOf env.repr events, ∃ x, base.key.text = some d.key
      ∧ env.bindText (.json d.deletedAt) = some x ∧ r = base.withMark d.ds x) :
    r.key = env.lineKey spec m := by
  rw [← lineRow_key hb]
  rcases hr with rfl | ⟨d, -, x, -, -, rfl⟩ <;> rfl

/-- Two tombstones of a log for one key are one. -/
theorem del_unique {events : List (String × Members)} (h : LogOk env spec events) {d e : Del}
    (hd : d ∈ delsOf env.repr events) (he : e ∈ delsOf env.repr events) (hk : d.key = e.key) :
    d = e := List.inj_on_of_nodup_map h.delsNodup hd he hk

/-- A steady table with nothing to come agrees with its log. -/
theorem Steady.agrees (h : Steady env spec db.files (db.shown spec.name) [] loads)
    (hloads : ∀ acts ∈ loads, acts = []) :
    Agrees env spec (tableEvents db.files spec.name) (db.shown spec.name) := by
  have hnone : ∀ Q : Act → Prop, ¬ ∃ acts ∈ loads, ∃ a ∈ acts, Q a := by
    rintro Q ⟨acts, hacts, a, ha, -⟩
    rw [hloads acts hacts] at ha
    cases ha
  -- every put key has its row, and every tombstone's row its mark
  have hrow : ∀ m ∈ putsOf (tableEvents db.files spec.name),
      ∃ r ∈ db.shown spec.name, r.key.text = (env.lineKey spec m).text := by
    intro m hm
    rcases h.complete m hm with (hr | hl) | ⟨_, ha, _⟩
    · exact hr
    · exact absurd hl (hnone _)
    · cases ha
  have hmarked : ∀ d ∈ delsOf env.repr (tableEvents db.files spec.name),
      ∃ r ∈ db.shown spec.name, r.key.text = some d.key ∧ r.deletedDs ≠ none := by
    intro d hd
    rcases h.safe d hd with (⟨r, hr, hk, hmark | hmark⟩ | ⟨acts, hacts, hmark, -⟩) | ⟨_, ha, _⟩
    · exact ⟨r, hr, hk, hmark⟩
    · exact absurd hmark (hnone _)
    · exact absurd ⟨acts, hacts, hmark⟩ (hnone _)
    · cases ha
  have hcell : ∀ r ∈ db.shown spec.name, KeyCell spec r.key := by
    intro r hr
    obtain ⟨m, hm, base, hb, hform⟩ := h.known r hr
    rw [FromLog.key hb hform, ← lineRow_key hb]
    exact stored_keyCell hb
  have hsame : ∀ r ∈ db.shown spec.name, ∀ r' ∈ db.shown spec.name,
      r.key.text = r'.key.text → r = r' := by
    intro r hr r' hr' hk
    exact List.inj_on_of_nodup_map (shown_nodup db spec.name) hr hr'
      ((hcell r hr).text_inj (hcell r' hr') (shown_notNull db _ r hr) (shown_notNull db _ r' hr') hk)
  refine ⟨h.log, fun r => ⟨fun hr => ?_, fun hs => ?_⟩⟩
  · obtain ⟨m, hm, base, hb, hform⟩ := h.known r hr
    rcases hform with rfl | ⟨d, hd, x, hk, hx, rfl⟩
    · refine .live hm hb fun d hd hk => ?_
      obtain ⟨r', hr', hk', hmark⟩ := hmarked d hd
      rw [hsame r' hr' r hr (hk'.trans hk.symm)] at hmark
      exact hmark (lineRow_live hb).1
    · exact .deleted hm hb hd hk hx
  · -- the row under the key is the row of this line, since no key is put twice
    have hline : ∀ {m base}, m ∈ putsOf (tableEvents db.files spec.name) →
        env.lineRow spec m = .ok base → ∃ r ∈ db.shown spec.name, r.key.text = base.key.text
          ∧ (r = base ∨ ∃ d ∈ delsOf env.repr (tableEvents db.files spec.name), ∃ x,
            base.key.text = some d.key ∧ env.bindText (.json d.deletedAt) = some x
              ∧ r = base.withMark d.ds x) := by
      intro m base hm hb
      obtain ⟨r, hr, hk⟩ := hrow m hm
      obtain ⟨m', hm', base', hb', hform⟩ := h.known r hr
      have hkey : env.lineKey spec m' = env.lineKey spec m := by
        rw [← FromLog.key hb' hform]
        have hstores := lineKey_keyCell (h.log.good.stores m hm)
        exact (hcell r hr).text_inj hstores.1 (shown_notNull db _ r hr) hstores.2 hk
      obtain rfl := List.inj_on_of_nodup_map h.log.good.keysNodup hm' hm hkey
      obtain rfl := Except.ok.inj (hb'.symm.trans hb)
      rw [← lineRow_key hb] at hk
      exact ⟨r, hr, hk, hform⟩
    cases hs with
    | live hm hb hnone =>
      obtain ⟨r', hr', -, hform⟩ := hline hm hb
      rcases hform with rfl | ⟨d, hd, x, hk, -, -⟩
      · exact hr'
      · exact absurd hk (hnone d hd)
    | @deleted m base d x hm hb hd hk hx =>
      obtain ⟨r', hr', hk', hform⟩ := hline hm hb
      obtain ⟨r'', hr'', hk'', hmark⟩ := hmarked d hd
      obtain rfl := hsame r'' hr'' r' hr' (hk''.trans (hk.symm.trans hk'.symm))
      rcases hform with rfl | ⟨d', hd', x', hdk, hx', rfl⟩
      · exact absurd (lineRow_live hb).1 hmark
      · obtain rfl := del_unique h.log hd' hd (Option.some.inj (hdk.symm.trans hk))
        obtain rfl := Option.some.inj (hx'.symm.trans hx)
        exact hr'

/-- What rebuilds beside the worker owe: every table is the replay of the log, every acknowledged
insert is a row and every acknowledged delete a mark, no key was acknowledged twice, and a rebuild
fails only of its embedder. -/
structure Consistent (env : Env) (schema : Schema) (s : System) : Prop where
  tables : ∀ spec ∈ schema.tables,
    (s.db.shown spec.name).Perm (replayRows env spec (iterEvents s.db.files spec.name))
  inserts : ∀ spec ∈ schema.tables, ∀ m ∈ putsOf (tableEvents s.acked spec.name),
    ∃ r ∈ s.db.shown spec.name, env.lineRow spec m = .ok r.unmarked
  deletes : ∀ spec ∈ schema.tables, ∀ d ∈ delsOf env.repr (tableEvents s.acked spec.name),
    ∃ r ∈ s.db.shown spec.name, r.key.text = some d.key ∧ r.deletedDs = some d.ds
      ∧ env.bindText (.json d.deletedAt) = some r.deletedAt
  once : ∀ spec ∈ schema.tables,
    ((putsOf (tableEvents s.acked spec.name)).map (env.lineKey spec)).Nodup
  failures : ∀ e, Rebuild.failed e ∈ s.rebuilds → e.OfEmbedder

theorem settled_loads {s : System} (h : s.Settled) : s.todo = [] ∧ ∀ acts ∈ s.loads, acts = [] := by
  refine ⟨by simp only [System.todo, h.1], fun acts hacts => ?_⟩
  obtain ⟨r, hr, rfl⟩ := List.mem_map.mp hacts
  have hlive := h.2.2 r hr
  cases r with
  | acting snaps todo => cases hlive
  | _ => rfl

theorem tableEvents_sublist {a b : Files} (h : a.Sublist b) (name : String) :
    (tableEvents a name).Sublist (tableEvents b name) := (h.filter _).map _

theorem lineRow_unmarked {m : Members} {base : Row} (h : env.lineRow spec m = .ok base) :
    base.unmarked = base := by
  obtain ⟨cells, key, d, c, -, -, -, -, rfl⟩ := stored_ok_iff.mp h
  rfl

/-- A row of the log is a row of a table that agrees with it, up to its mark. -/
theorem Agrees.inserted {events : List (String × Members)} {rows : List Row}
    (h : Agrees env spec events rows) {m : Members} (hm : m ∈ putsOf events) :
    ∃ r ∈ rows, env.lineRow spec m = .ok r.unmarked := by
  obtain ⟨base, hb, -⟩ := h.log.good.stores m hm
  have hplain := lineRow_unmarked hb
  by_cases hex : ∃ d ∈ delsOf env.repr events, base.key.text = some d.key
  · obtain ⟨d, hd, hk⟩ := hex
    obtain ⟨x, hx⟩ := h.log.delsBind d hd
    refine ⟨_, (h.rows _).mpr (.deleted hm hb hd hk hx), ?_⟩
    show env.lineRow spec m = .ok base.unmarked
    rw [hplain]; exact hb
  · refine ⟨base, (h.rows _).mpr (.live hm hb fun d hd hk => hex ⟨d, hd, hk⟩), ?_⟩
    rw [hplain]; exact hb

theorem Agrees.deleted {events : List (String × Members)} {rows : List Row}
    (h : Agrees env spec events rows) {d : Del} (hd : d ∈ delsOf env.repr events) :
    ∃ r ∈ rows, r.key.text = some d.key ∧ r.deletedDs = some d.ds
      ∧ env.bindText (.json d.deletedAt) = some r.deletedAt := by
  obtain ⟨m, hm, hk⟩ := h.log.delsPut d hd
  obtain ⟨base, hb, -⟩ := h.log.good.stores m hm
  obtain ⟨x, hx⟩ := h.log.delsBind d hd
  rw [← lineRow_key hb] at hk
  exact ⟨_, (h.rows _).mpr (.deleted hm hb hd hk hx), hk, rfl, hx⟩

theorem steady_nil (spec : TableSpec) : Steady env spec [] [] [] [] where
  log := agrees_nil.log
  known := fun r hr => by cases hr
  complete := fun m hm => absurd hm (by simp [tableEvents, putsOf])
  safe := fun d hd => absurd hd (by simp [tableEvents, delsOf])

/-- Runs that nothing disturbs: whenever everything has settled, the tables are the log. -/
theorem undisturbed_settles (hrt : env.RoundTrip) (hprint : env.KeysPrint)
    (hdel : ∀ spec ∈ schema.tables, "_deleted" ∉ spec.columnNames) {labels : List Label}
    {s : System} (hrun : run (step env schema) System.init labels = some s)
    (hguard : Guarded (step env schema) (Undisturbed env schema) System.init labels)
    (hset : s.Settled) : Consistent env schema s := by
  have hstable := programs_stable hrt hprint hdel
  have hstart : run (step env schema) System.init [] = some System.init := rfl
  have hinit : System.init.Programmed env schema ∧ System.init.Steady env schema :=
    ⟨holds_run hstable hstart, fun spec _ => steady_nil spec, fun e he => by cases he⟩
  have hsteady : s.Steady env schema :=
    (run_guarded (I := fun s => s.Programmed env schema ∧ s.Steady env schema)
      (fun s l t hs hg hst => ⟨holds_step hstable hs.1 hst, step_steady hs.1 hs.2 hg hst⟩)
      hinit hguard hrun).2
  have hacked : s.acked.Sublist s.db.files := by
    have hempty : System.init.AckedInLog := List.Sublist.refl []
    have h := run_invariant (fun _ _ _ h hst => step_acked h hst) hempty hrun
    exact (List.sublist_append_left _ _).trans ((List.sublist_append_left _ _).trans h)
  obtain ⟨htodo, hloads⟩ := settled_loads hset
  have hagree : ∀ spec ∈ schema.tables,
      Agrees env spec (tableEvents s.db.files spec.name) (s.db.shown spec.name) := by
    intro spec hspec
    have h := hsteady.tables spec hspec
    rw [htodo] at h
    exact h.agrees hloads
  refine ⟨fun spec hspec => (hagree spec hspec).perm, fun spec hspec m hm => ?_,
    fun spec hspec d hd => ?_, fun spec hspec => ?_, hsteady.failures⟩
  · exact (hagree spec hspec).inserted (putsOf_mono hacked.subset hm)
  · exact (hagree spec hspec).deleted (delsOf_mono hacked.subset hd)
  · have hsub : (putsOf (tableEvents s.acked spec.name)).Sublist
        (putsOf (tableEvents s.db.files spec.name)) :=
      ((tableEvents_sublist hacked spec.name).filter _).map _
    exact (hagree spec hspec).log.good.keysNodup.sublist (hsub.map _)

/-- A note that is written while a rebuild loads another one. -/
def besideLoad : List Label :=
  opLabels ⟨"20260102", "t1", t1_ne⟩ (.insert "notes" [[("id", strVal "n1")]] false) 2
    ++ [.rebuild fun _ _ => "t3", .read 0, .replay 0, .replay 0,
      .take (.insert "notes" [[("id", strVal "n2")]] false), .decide,
      .plan ⟨"20260103", "t2", t2_ne⟩, .write, .replay 0, .write, .finish, .settle,
      .replay 0, .replay 0]

theorem plainEnv_keysPrint : plainEnv.KeysPrint := by
  intro spec cond params views ks h k hk j hj
  obtain ⟨p, rfl⟩ := plainSelect_predicate spec cond params views ks h
  obtain ⟨r, -, rfl⟩ := List.mem_map.mp hk
  cases hc : r.key with
  | other t => rw [hc] at hj; cases hj
  | _ => rw [hc] at hj; cases hj; rfl

theorem undisturbed_settles_notes : ∃ s,
    run (step plainEnv notesSchema) System.init besideLoad = some s ∧ s.Settled
      ∧ (s.db.shown "notes").length = 2 ∧ Consistent plainEnv notesSchema s := by
  have hsome : ((run (step plainEnv notesSchema) System.init besideLoad).map fun s =>
      (decide s.Settled, (s.db.shown "notes").length)) = some (true, 2) := by decide
  obtain ⟨s, hrun, h⟩ := Option.map_eq_some_iff.mp hsome
  obtain ⟨hset, hlen⟩ := Prod.mk.inj h
  have hset := of_decide_eq_true hset
  have hguard : Guarded (step plainEnv notesSchema) (Undisturbed plainEnv notesSchema) System.init
      besideLoad := by decide
  exact ⟨s, hrun, hset, hlen, undisturbed_settles plainEnv_roundTrip plainEnv_keysPrint
    notes_noDeleted hrun hguard hset⟩

/-- A note that is written between a rebuild's read and its clear. -/
def lostWrite : List Label :=
  [.rebuild fun _ _ => "t3", .read 0]
    ++ opLabels ⟨"20260102", "t1", t1_ne⟩ (.insert "notes" [[("id", strVal "n1")]] false) 2
    ++ List.replicate 4 (.replay 0)

/-- It is acknowledged, and its row is gone when everything has settled. -/
theorem rebuild_loses_write : ∃ s,
    run (step plainEnv notesSchema) System.init lostWrite = some s ∧ s.Settled
      ∧ s.acked.length = 1 ∧ s.db.shown "notes" = []
      ∧ ¬ Consistent plainEnv notesSchema s := by
  have hsome : ((run (step plainEnv notesSchema) System.init lostWrite).map fun s =>
      (decide s.Settled, s.acked.length, s.db.shown "notes",
        (replayRows plainEnv notes (iterEvents s.db.files "notes")).length))
      = some (true, 1, [], 1) := by decide
  obtain ⟨s, hrun, h⟩ := Option.map_eq_some_iff.mp hsome
  obtain ⟨hset, hacked, hshown, hlog⟩ : _ ∧ _ ∧ _ ∧ _ := by simpa only [Prod.mk.injEq] using h
  refine ⟨s, hrun, of_decide_eq_true hset, hacked, hshown, fun hc => ?_⟩
  have hperm := (hc.tables notes (by simp [notesSchema])).length_eq
  have hlen : (s.db.shown notes.name).length = 0 := by
    rw [show notes.name = "notes" from rfl, hshown]; rfl
  rw [hlen] at hperm
  exact absurd (hperm.trans hlog) (by decide)

end Settled

end Seekbase
