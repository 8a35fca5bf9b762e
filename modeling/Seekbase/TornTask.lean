/-
# Seekbase.TornTask — the task log under crashes.

The mirror's reader steps over a line that is no JSON text.  The log's readers parse every line of a
file and raise at the first that is none, so a torn line takes the tasks of its day with it, and a
line that a later append glues onto a torn one is itself no JSON text.

* `CrashLog`, `CrashLog.step` — the log with what was completely appended, and one append, cut or not;
* `CrashLog.Reads`   — `status` and `list` succeed and report the last completely appended states;
* `Legible`             — the files are whole lines, each perhaps with one whole line without its newline;
* `torn_task_lines`  — the log reads in every state of a run iff each of its appends was clean.
-/
import Seekbase.TaskLog
import Seekbase.Lib.Run

namespace Seekbase

open JsonText Transition

/-! ## Appends that a crash cuts -/

/-- An append that completes, or one that a crash cuts after `k` bytes of its line. -/
inductive LogEvent where
  | whole (t : Task) (ht : t.Issued)
  | cut (t : Task) (ht : t.Issued) (k : Nat) (hk : k < (lineBytes t.toWire).length)

/-- A log, the tasks whose append completed, and how many appends were begun. -/
structure CrashLog where
  dir : LogDir
  acked : List Task
  begun : Nat

def CrashLog.init : CrashLog := ⟨.empty, [], 0⟩

def CrashLog.step (s : CrashLog) : LogEvent → Option CrashLog
  | .whole t _ => some ⟨s.dir.append t, s.acked ++ [t], s.begun + 1⟩
  | .cut t _ k _ => some ⟨s.dir.write t.file ((lineBytes t.toWire).take k), s.acked, s.begun + 1⟩

/-- Both readers succeed and report the last completely appended states; `list` is asked for at least
as many tasks as there can be, so it goes over all partitions. -/
structure CrashLog.Reads (s : CrashLog) : Prop where
  status : ∀ t, LastState s.acked t → s.dir.status t.id = .ok t
  list : ∀ limit, s.begun ≤ limit → ∃ out, s.dir.list limit = .ok out
    ∧ ∀ t, LastState s.acked t → t ∈ out

/-- The bytes of a file; one that is not there is empty. -/
def LogDir.contents (dir : LogDir) (name : String) : List UInt8 := (lookup name dir.files).getD []

/-- A file is empty or ends with a newline. -/
def LogDir.AtLineStart (dir : LogDir) (name : String) : Prop :=
  dir.contents name = [] ∨ (dir.contents name).getLast? = some 10

/-- A complete append finds no torn line.  A cut leaves nothing of the line; or, at the start of a
line, all of it but the newline, where the task has no other state that was completely appended. -/
def CleanEvent (s : CrashLog) : LogEvent → Prop
  | .whole t _ => s.dir.AtLineStart t.file
  | .cut t _ k _ => k = 0 ∨ (k = (Utf8.encode (dumps (.obj t.toWire))).length
    ∧ s.dir.AtLineStart t.file ∧ ∀ u, LastState s.acked u → u.id = t.id → u = t)

/-! ## Torn and glued lines -/

theorem logLines_states (ms : List Members) (cs : List Char) :
    logLines (ms.flatMap lineText ++ cs) = (logLines cs).map (ms ++ ·) := by
  induction ms with
  | nil => cases h : logLines cs <;> simp [h]
  | cons m ms ih =>
    rw [List.flatMap_cons, lineText, List.append_assoc, List.append_assoc, List.singleton_append,
      logLines_newline, logLines_dumps, ih]
    cases logLines cs <;> rfl

/-- Stripping keeps what stands in front of a character that is no blank. -/
theorem rdropWhile_keeps {a b : List Char} {c : Char} (hc : isSpace c = false) :
    ∃ b', (a ++ c :: b).rdropWhile isSpace = a ++ c :: b' := by
  induction b using List.reverseRecOn with
  | nil => exact ⟨[], List.rdropWhile_concat_neg _ _ _ (by simp [hc])⟩
  | append_singleton b d ih =>
    rw [← List.cons_append, ← List.append_assoc]
    by_cases hd : isSpace d = true
    · rw [List.rdropWhile_concat_pos _ _ _ hd]
      exact ih
    · rw [List.rdropWhile_concat_neg _ _ _ hd]
      exact ⟨b ++ [d], by simp⟩

theorem strip_brace (cs : List Char) : strip ('{' :: cs) = ('{' :: cs).rdropWhile isSpace := by
  have hopen : isSpace '{' = false := by decide
  rw [strip, List.dropWhile_cons_of_neg (by simp [hopen])]

/-- One line that begins with a brace and is no JSON text. -/
theorem logLines_bad {cs : List Char} (hnl : ∀ c ∈ '{' :: cs, isNewline c = false)
    (hload : loads (strip ('{' :: cs)) = none) : logLines ('{' :: cs) = none := by
  have hne : strip ('{' :: cs) ≠ [] := by
    obtain ⟨b', hb'⟩ := rdropWhile_keeps (a := []) (b := cs) (show isSpace '{' = false by decide)
    rw [strip_brace]
    rw [List.nil_append] at hb'
    rw [hb']
    exact List.cons_ne_nil _ _
  rw [logLines_single hnl hne, loadsDict, hload]
  rfl

theorem dumps_head (m : Members) : ∃ body, dumps (.obj m) = '{' :: body := by
  obtain ⟨body, hbody⟩ := dumps_obj_braces m
  exact ⟨body ++ ['}'], by rw [hbody]; rfl⟩

/-- What is left of a line, if it is not all of it, is no JSON text. -/
theorem logLines_torn {m : Members} {q : List Char} (hq : q <+: dumps (.obj m)) (hne : q ≠ [])
    (hpart : q ≠ dumps (.obj m)) : logLines q = none := by
  obtain ⟨body, hbody⟩ := dumps_head m
  obtain ⟨c, cs, rfl⟩ := List.exists_cons_of_ne_nil hne
  obtain rfl : c = '{' := by
    rw [hbody] at hq
    exact (List.cons_prefix_cons.mp hq).1
  refine logLines_bad (fun c hc => isNewline_dumps _ c (hq.subset hc)) ?_
  rw [strip_brace]
  apply Stuck.loads
  apply Stuck.prefix
  · exact stuck_of_cut hq hpart
  · exact List.rdropWhile_prefix _ _

/-- Nor is a whole line with something of another one behind it. -/
theorem logLines_glued {m m' : Members} {q : List Char} (hq : q <+: dumps (.obj m')) (hne : q ≠ []) :
    logLines (dumps (.obj m) ++ q) = none := by
  obtain ⟨body, hbody⟩ := dumps_head m
  obtain ⟨body', hbody'⟩ := dumps_head m'
  obtain ⟨c, cs, rfl⟩ := List.exists_cons_of_ne_nil hne
  obtain rfl : c = '{' := by
    rw [hbody'] at hq
    exact (List.cons_prefix_cons.mp hq).1
  have hload : loads (strip (dumps (.obj m) ++ '{' :: cs)) = none := by
    obtain ⟨b', hb'⟩ := rdropWhile_keeps (a := dumps (.obj m)) (b := cs)
      (show isSpace '{' = false by decide)
    have hstrip : strip (dumps (.obj m) ++ '{' :: cs) = dumps (.obj m) ++ '{' :: b' := by
      rw [hbody, List.cons_append, strip_brace, ← List.cons_append, ← hbody]
      exact hb'
    rw [hstrip]
    exact loads_followed (by decide)
  have hnl : ∀ c ∈ dumps (.obj m) ++ '{' :: cs, isNewline c = false := by
    intro c hc
    rcases List.mem_append.mp hc with hc | hc
    · exact isNewline_dumps _ c hc
    · exact isNewline_dumps _ c (hq.subset hc)
  rw [hbody, List.cons_append] at hnl hload ⊢
  exact logLines_bad hnl hload

/-! ## The files of a log -/

/-- The bytes of lines without their newline. -/
def tornBytes (ts : List Task) : List UInt8 := ts.flatMap fun t => Utf8.encode (dumps (.obj t.toWire))

/-- The files are whole lines, and behind them perhaps a line that lacks its newline; `torn` are the
tasks of these. -/
structure Layout (s : CrashLog) (torn : List Task) : Prop where
  issued : ∀ t ∈ s.acked ++ torn, t.Issued
  oneEach : (torn.map Task.file).Nodup
  contents : ∀ name, s.dir.contents name
    = fileBytes (fileStates s.acked name) ++ tornBytes (fileStates torn name)

/-- And a task whose line lacks its newline has no other state. -/
structure Legible (s : CrashLog) (torn : List Task) : Prop extends Layout s torn where
  only : ∀ t ∈ torn, ∀ u, LastState s.acked u → u.id = t.id → u = t
  count : s.acked.length + torn.length ≤ s.begun

section Files

variable {s : CrashLog} {torn : List Task} {name : String}

theorem contents_write (dir : LogDir) (name other : String) (bytes : List UInt8) :
    (dir.write name bytes).contents other
      = if name = other then dir.contents other ++ bytes else dir.contents other := by
  rw [LogDir.contents, LogDir.write, lookup_upsert dir.namesNodup]
  by_cases h : name = other
  · subst h
    rw [if_pos rfl, if_pos rfl]
    rfl
  · rw [if_neg h, if_neg h]
    rfl

/-- At most one line of a file lacks its newline. -/
theorem torn_cases (h : (torn.map Task.file).Nodup) (name : String) :
    fileStates torn name = [] ∨ ∃ t ∈ torn, t.file = name ∧ fileStates torn name = [t] := by
  have hfile : ∀ t ∈ fileStates torn name, t ∈ torn ∧ t.file = name := by
    intro t ht
    obtain ⟨hmem, hname⟩ := List.mem_filter.mp ht
    exact ⟨hmem, of_decide_eq_true hname⟩
  have hnodup : ((fileStates torn name).map Task.file).Nodup :=
    h.sublist (List.filter_sublist.map Task.file)
  match hstates : fileStates torn name with
  | [] => exact .inl rfl
  | [t] =>
    obtain ⟨hmem, hname⟩ := hfile t (by rw [hstates]; exact List.mem_cons_self)
    exact .inr ⟨t, hmem, hname, rfl⟩
  | t :: u :: rest =>
    rw [hstates] at hfile hnodup
    have ht := (hfile t List.mem_cons_self).2
    have hu := (hfile u (List.mem_cons_of_mem _ List.mem_cons_self)).2
    exact absurd (by simp [ht, hu]) (List.nodup_cons.mp hnodup).1

theorem fileBytes_encode (ts : List Task) :
    fileBytes ts = Utf8.encode ((ts.map Task.toWire).flatMap lineText) := by
  rw [← flatMap_lineBytes, List.flatMap_map]
  rfl

theorem lineBytes_last (m : Members) : ∃ init, lineBytes m = init ++ [10] := by
  refine ⟨Utf8.encode (dumps (.obj m)), ?_⟩
  have hn : Utf8.encode ['\n'] = [10] := by decide
  rw [lineBytes, lineText, Utf8.encode_append, hn]

theorem dumps_last (m : Members) : ∃ init, Utf8.encode (dumps (.obj m)) = init ++ [125] := by
  obtain ⟨body, hbody⟩ := dumps_obj_braces m
  have hn : Utf8.encode ['}'] = [125] := by decide
  exact ⟨Utf8.encode ('{' :: body), by rw [hbody, Utf8.encode_append, hn]⟩

/-- Whole lines end with a newline. -/
theorem fileBytes_last (ts : List Task) : fileBytes ts = [] ∨ (fileBytes ts).getLast? = some 10 := by
  rcases List.eq_nil_or_concat' ts with rfl | ⟨init, t, rfl⟩
  · exact .inl rfl
  · obtain ⟨bytes, hbytes⟩ := lineBytes_last t.toWire
    refine .inr ?_
    rw [fileBytes, List.flatMap_append, List.flatMap_singleton, hbytes, ← List.append_assoc,
      List.getLast?_concat]

theorem Layout.atLineStart (h : Layout s torn) :
    s.dir.AtLineStart name ↔ fileStates torn name = [] := by
  rw [LogDir.AtLineStart, h.contents]
  rcases torn_cases h.oneEach name with hnil | ⟨t, -, -, hone⟩
  · rw [hnil]
    refine iff_of_true ?_ rfl
    show fileBytes _ ++ [] = [] ∨ (fileBytes _ ++ []).getLast? = some 10
    rw [List.append_nil]
    exact fileBytes_last _
  · -- a line without its newline ends with a brace
    obtain ⟨init, hinit⟩ := dumps_last t.toWire
    have hbytes : tornBytes [t] = init ++ [125] := by
      rw [tornBytes, List.flatMap_singleton, hinit]
    rw [hone, hbytes, ← List.append_assoc]
    refine iff_of_false ?_ (List.cons_ne_nil _ _)
    rintro (hnil | hlast)
    · simp at hnil
    · rw [List.getLast?_concat] at hlast
      exact absurd (Option.some.inj hlast) (by decide)

/-! ## A legible log reads -/

theorem readLog_torn (ts : List Task) {us : List Task} (hus : us = [] ∨ ∃ t, us = [t]) :
    readLog (fileBytes ts ++ tornBytes us) = some ((ts ++ us).map Task.toWire) := by
  rcases hus with rfl | ⟨t, rfl⟩
  · have h := readLog_states ts
    rw [List.append_nil]
    show readLog (fileBytes ts ++ []) = _
    rwa [List.append_nil]
  · rw [tornBytes, List.flatMap_singleton, fileBytes_encode, ← Utf8.encode_append, readLog,
      Utf8.decode_encode, Option.bind_some, logLines_states, logLines_dumps, List.map_append]
    rfl

theorem fileStates_append (ts us : List Task) (name : String) :
    fileStates (ts ++ us) name = fileStates ts name ++ fileStates us name := List.filter_append ..

theorem Layout.shows (h : Layout s torn) : s.dir.Shows (s.acked ++ torn) where
  issued := h.issued
  reads := by
    intro f hf
    have hlookup := (mem_iff_lookup s.dir.namesNodup).mp hf
    have hcontents := h.contents f.1
    rw [LogDir.contents, hlookup, Option.getD_some] at hcontents
    rw [hcontents, fileStates_append]
    refine readLog_torn _ ?_
    rcases torn_cases h.oneEach f.1 with hnil | ⟨t, -, -, hone⟩
    · exact .inl hnil
    · exact .inr ⟨t, hone⟩
  covers := by
    intro t ht
    by_contra hno
    have hcontents := h.contents t.file
    rw [LogDir.contents, lookup_none_iff.mpr hno, Option.getD_none] at hcontents
    obtain ⟨hlines, hrest⟩ := List.append_eq_nil_iff.mp hcontents.symm
    -- neither a line nor one without its newline is empty
    rcases List.mem_append.mp ht with ht | ht
    · have hmem : t ∈ fileStates s.acked t.file := List.mem_filter.mpr ⟨ht, decide_eq_true rfl⟩
      obtain ⟨init, hinit⟩ := lineBytes_last t.toWire
      have hnil := List.flatMap_eq_nil_iff.mp hlines t hmem
      rw [hinit] at hnil
      simp at hnil
    · have hmem : t ∈ fileStates torn t.file := List.mem_filter.mpr ⟨ht, decide_eq_true rfl⟩
      obtain ⟨init, hinit⟩ := dumps_last t.toWire
      have hnil := List.flatMap_eq_nil_iff.mp hrest t hmem
      rw [hinit] at hnil
      simp at hnil

/-- What was completely appended last is what is shown last. -/
theorem Legible.last (h : Legible s torn) {t : Task} (ht : LastState s.acked t) :
    LastState (s.acked ++ torn) t := by
  rw [LastState, List.filter_append]
  cases hrest : (torn.filter (·.id = t.id)).getLast? with
  | none => rw [List.getLast?_eq_none_iff.mp hrest, List.append_nil, ht]
  | some u =>
    have hmem := List.mem_filter.mp (List.mem_of_getLast? hrest)
    have hid : u.id = t.id := of_decide_eq_true hmem.2
    obtain rfl := h.only u hmem.1 t ht hid.symm
    rw [List.getLast?_append, hrest]
    rfl

theorem Legible.reads (h : Legible s torn) : s.Reads where
  status t ht := (status_ok_iff h.shows t).mpr (h.last ht)
  list := by
    intro limit hlimit
    obtain ⟨L, read, rest, hlist, hgather, hrest⟩ := list_gathers h.shows limit
    refine ⟨_, hlist, fun t ht => ?_⟩
    have hcount := h.count
    have hle : L.length ≤ (s.acked ++ torn).length := by
      refine hgather.length_le.trans ?_
      rw [taskCount, ← List.length_map (f := Task.id)]
      exact (List.dedup_sublist _).length_le
    rw [List.length_append] at hle
    have hpos : 0 < s.acked.length := List.length_pos_of_mem ht.mem
    have hall : rest = [] := by
      rcases hrest with hnil | hfull
      · exact hnil
      · omega
    subst hall
    have hcover := hgather.covers t (h.last ht).mem
    rw [List.append_nil] at hcover
    have hmem := (hgather.mem t).mpr ⟨hcover, h.last ht⟩
    rw [List.take_of_length_le (by rw [(List.perm_insertionSort _ L).length_eq]; omega)]
    exact (List.perm_insertionSort _ L).mem_iff.mpr hmem

/-! ## A clean append -/

theorem fileStates_single {t : Task} (name : String) :
    fileStates [t] name = if t.file = name then [t] else [] := by
  by_cases h : t.file = name <;> simp [fileStates, h]

/-- The last state under an id is not touched by a task of another file. -/
theorem lastState_snoc {ts : List Task} {t u : Task} (h : t.file ≠ u.file) :
    LastState (ts ++ [t]) u ↔ LastState ts u := by
  have hid : t.id ≠ u.id := by
    intro heq
    exact h (by rw [Task.file, Task.file, heq])
  rw [LastState, LastState, List.filter_append]
  simp [hid]

theorem file_of_id {t u : Task} (h : t.id = u.id) : t.file = u.file := by
  rw [Task.file, Task.file, h]

theorem Legible.whole (h : Legible s torn) {t : Task} (ht : t.Issued)
    (hstart : s.dir.AtLineStart t.file) :
    Legible ⟨s.dir.append t, s.acked ++ [t], s.begun + 1⟩ torn where
  issued := by
    intro u hu
    rw [List.append_assoc, List.mem_append, List.mem_append, List.mem_singleton] at hu
    rcases hu with hu | rfl | hu
    · exact h.issued u (List.mem_append_left _ hu)
    · exact ht
    · exact h.issued u (List.mem_append_right _ hu)
  only := by
    intro x hx u hu hid
    have hno : ¬ x.file = t.file := by
      intro heq
      have hmem : x ∈ fileStates torn t.file := List.mem_filter.mpr ⟨hx, decide_eq_true heq⟩
      rw [h.atLineStart.mp hstart] at hmem
      cases hmem
    rw [← file_of_id hid] at hno
    exact h.only x hx u ((lastState_snoc (Ne.symm hno)).mp hu) hid
  oneEach := h.oneEach
  contents := by
    intro name
    show (s.dir.write t.file (lineBytes t.toWire)).contents name = _
    rw [contents_write, h.contents, fileStates_append, fileStates_single]
    by_cases heq : t.file = name
    · subst heq
      rw [if_pos rfl, if_pos rfl, h.atLineStart.mp hstart]
      simp [fileBytes, tornBytes]
    · rw [if_neg heq, if_neg heq, List.append_nil]
  count := by
    have hcount := h.count
    show (s.acked ++ [t]).length + torn.length ≤ s.begun + 1
    rw [List.length_append, List.length_singleton]
    omega

theorem Legible.cut_nothing (h : Legible s torn) (t : Task) :
    Legible ⟨s.dir.write t.file [], s.acked, s.begun + 1⟩ torn where
  issued := h.issued
  only := h.only
  oneEach := h.oneEach
  contents := by
    intro name
    rw [contents_write, List.append_nil, ite_self]
    exact h.contents name
  count := Nat.le_succ_of_le h.count

theorem Layout.cut_newline (h : Layout s torn) {t : Task} (ht : t.Issued)
    (hstart : s.dir.AtLineStart t.file) :
    Layout ⟨s.dir.write t.file (Utf8.encode (dumps (.obj t.toWire))), s.acked, s.begun + 1⟩
      (torn ++ [t]) where
  issued := by
    intro u hu
    rw [← List.append_assoc, List.mem_append, List.mem_singleton] at hu
    rcases hu with hu | rfl
    · exact h.issued u hu
    · exact ht
  oneEach := by
    rw [List.map_append, List.map_singleton]
    refine h.oneEach.append (List.nodup_singleton _) fun name hname hone => ?_
    obtain ⟨x, hx, hfile⟩ := List.mem_map.mp hname
    have hmem : x ∈ fileStates torn t.file :=
      List.mem_filter.mpr ⟨hx, decide_eq_true (hfile.trans (List.mem_singleton.mp hone))⟩
    rw [h.atLineStart.mp hstart] at hmem
    cases hmem
  contents := by
    intro name
    rw [contents_write, h.contents, fileStates_append, fileStates_single]
    by_cases heq : t.file = name
    · subst heq
      rw [if_pos rfl, if_pos rfl, h.atLineStart.mp hstart]
      simp [tornBytes]
    · rw [if_neg heq, if_neg heq, List.append_nil]

theorem Legible.cut_newline (h : Legible s torn) {t : Task} (ht : t.Issued)
    (hstart : s.dir.AtLineStart t.file) (honly : ∀ u, LastState s.acked u → u.id = t.id → u = t) :
    Legible ⟨s.dir.write t.file (Utf8.encode (dumps (.obj t.toWire))), s.acked, s.begun + 1⟩
      (torn ++ [t]) where
  toLayout := h.toLayout.cut_newline ht hstart
  only := by
    intro x hx
    rcases List.mem_append.mp hx with hx | hx
    · exact h.only x hx
    · obtain rfl := List.mem_singleton.mp hx
      exact honly
  count := by
    have hcount := h.count
    show s.acked.length + (torn ++ [t]).length ≤ s.begun + 1
    rw [List.length_append, List.length_singleton]
    omega

/-! ## Any other append -/

theorem collect_length (out : List (String × Members)) (recs : List Members) :
    (collect out recs).length ≤ out.length + recs.length := by
  induction recs generalizing out with
  | nil => exact le_rfl
  | cons d recs ih =>
    have hone : (upsert (keyOf d) (fun _ => d) out).length ≤ out.length + 1 := by
      have hnames := congrArg List.length (upsert_names (k := keyOf d) (f := fun _ => d) (l := out))
      rw [List.length_map] at hnames
      rw [hnames]
      split
      · rw [List.length_map]
        omega
      · rw [List.length_append, List.length_map, List.length_singleton]
    have hrest := ih (upsert (keyOf d) (fun _ => d) out)
    show (collect (upsert (keyOf d) (fun _ => d) out) recs).length ≤ _
    rw [List.length_cons]
    omega

/-- How many dicts the files hold that can be read. -/
def dictCount (fs : List (String × List UInt8)) : Nat :=
  (fs.map fun f => ((readLog f.2).getD []).length).sum

/-- A scan that is asked for many tasks raises at a file it cannot read. -/
theorem scanLogs_bad {limit : Nat} {fs : List (String × List UInt8)} {f : String × List UInt8}
    (hf : f ∈ fs) (hbad : readLog f.2 = none) {out : List (String × Members)}
    (hmany : out.length + dictCount fs < 3 * limit) : scanLogs limit fs out = none := by
  induction fs generalizing out with
  | nil => cases hf
  | cons g fs ih =>
    have hcount : dictCount (g :: fs) = ((readLog g.2).getD []).length + dictCount fs := by
      rw [dictCount, List.map_cons, List.sum_cons]
      rfl
    rw [scanLogs, if_neg (by omega)]
    cases hg : readLog g.2 with
    | none => rfl
    | some recs =>
      rw [hg, Option.getD_some] at hcount
      have hrest : f ∈ fs := by
        rcases List.mem_cons.mp hf with rfl | hrest
        · rw [hbad] at hg
          cases hg
        · exact hrest
      have hle := collect_length out recs
      exact ih hrest (by omega)

/-- Where a file cannot be read, `list` raises when it is asked for enough. -/
theorem not_reads_of_bad (hbad : readLog (s.dir.contents name) = none) : ¬ s.Reads := by
  intro hreads
  have hmem : (name, s.dir.contents name) ∈ s.dir.files := by
    rw [mem_iff_lookup s.dir.namesNodup, LogDir.contents]
    cases hlookup : lookup name s.dir.files with
    | none =>
      -- a file that is not there is empty, and that is read
      rw [LogDir.contents, hlookup] at hbad
      exact absurd hbad (by decide)
    | some bytes => rfl
  set fs := s.dir.files.insertionSort fun a b => b.1 ≤ a.1 with hfs
  have hsorted : (name, s.dir.contents name) ∈ fs := (List.perm_insertionSort _ _).mem_iff.mpr hmem
  obtain ⟨out, hlist, -⟩ := hreads.list (s.begun + dictCount fs + 1) (by omega)
  have hscan : scanLogs (s.begun + dictCount fs + 1) fs [] = none := by
    refine scanLogs_bad hsorted hbad ?_
    rw [List.length_nil]
    omega
  rw [LogDir.list, ← hfs, hscan] at hlist
  cases hlist

theorem readLog_none {text : List Char} (h : logLines text = none) :
    readLog (Utf8.encode text) = none := by
  rw [readLog, Utf8.decode_encode, Option.bind_some, h]

/-- Behind whole lines, a text that cannot be read cannot be read. -/
theorem readLog_behind (ts : List Task) {text : List Char} (h : logLines text = none) :
    readLog (fileBytes ts ++ Utf8.encode text) = none := by
  rw [fileBytes_encode, ← Utf8.encode_append]
  refine readLog_none ?_
  rw [logLines_states, h]
  rfl

/-- A complete append onto a line without its newline makes one bad line of both. -/
theorem Legible.whole_bad (h : Legible s torn) {t : Task} (hstart : ¬ s.dir.AtLineStart t.file) :
    ¬ CrashLog.Reads ⟨s.dir.append t, s.acked ++ [t], s.begun + 1⟩ := by
  rw [h.atLineStart] at hstart
  obtain ⟨x, -, -, hone⟩ := (torn_cases h.oneEach t.file).resolve_left hstart
  refine not_reads_of_bad
    (?_ : readLog ((s.dir.write t.file (lineBytes t.toWire)).contents t.file) = none)
  have hglued := logLines_glued (m := x.toWire) (List.prefix_refl (dumps (.obj t.toWire))) (dumps_ne_nil _)
  rw [contents_write, if_pos rfl, h.contents, hone, tornBytes, List.flatMap_singleton, lineBytes,
    List.append_assoc, ← Utf8.encode_append]
  refine readLog_behind _ ?_
  rw [lineText, ← List.append_assoc, logLines_newline, hglued]
  rfl

theorem tornBytes_encode (ts : List Task) :
    tornBytes ts = Utf8.encode (ts.flatMap fun t => dumps (.obj t.toWire)) := by
  induction ts with
  | nil => rfl
  | cons t ts ih =>
    rw [tornBytes] at ih ⊢
    rw [List.flatMap_cons, List.flatMap_cons, ih, Utf8.encode_append]

/-- A whole line without its newline in place of another state of its task. -/
theorem Layout.newline_bad (h : Layout s torn) {t u : Task} (ht : t.Issued)
    (hstart : s.dir.AtLineStart t.file) (hu : LastState s.acked u) (hid : u.id = t.id) (hne : u ≠ t) :
    ¬ CrashLog.Reads ⟨s.dir.write t.file (Utf8.encode (dumps (.obj t.toWire))), s.acked, s.begun + 1⟩ := by
  intro hreads
  have hshows := (h.cut_newline ht hstart).shows
  have hlast := (status_ok_iff hshows u).mp (hreads.status u hu)
  rw [LastState, ← List.append_assoc, List.filter_append] at hlast
  have hone : [t].filter (fun x => decide (x.id = u.id)) = [t] := by simp [hid]
  rw [hone, List.getLast?_concat] at hlast
  exact hne (Option.some.inj hlast).symm

/-- Any other cut makes one, or shows a state that was not completely appended in place of one that
was. -/
theorem Legible.cut_bad (h : Legible s torn) {t : Task} {k : Nat} (ht : t.Issued)
    (hk : k < (lineBytes t.toWire).length) (hclean : ¬ CleanEvent s (.cut t ht k hk)) :
    ¬ CrashLog.Reads ⟨s.dir.write t.file ((lineBytes t.toWire).take k), s.acked, s.begun + 1⟩ := by
  obtain ⟨hpos, hother⟩ : k ≠ 0 ∧ ¬ (k = (Utf8.encode (dumps (.obj t.toWire))).length
      ∧ s.dir.AtLineStart t.file ∧ ∀ u, LastState s.acked u → u.id = t.id → u = t) := not_or.mp hclean
  have hlen : ((lineBytes t.toWire).take k).length = k := by
    rw [List.length_take]
    omega
  -- what the file holds afterwards, and what makes it unreadable
  have hbad : readLog (fileBytes (fileStates s.acked t.file)
        ++ (tornBytes (fileStates torn t.file) ++ (lineBytes t.toWire).take k)) = none →
      ¬ CrashLog.Reads ⟨s.dir.write t.file ((lineBytes t.toWire).take k), s.acked, s.begun + 1⟩ := by
    intro hread
    refine not_reads_of_bad
      (?_ : readLog ((s.dir.write t.file ((lineBytes t.toWire).take k)).contents t.file) = none)
    rwa [contents_write, if_pos rfl, h.contents, List.append_assoc]
  by_cases hdec : (Utf8.decode ((lineBytes t.toWire).take k)).isSome = true
  · obtain ⟨more, hbytes, hpre⟩ := cut_prefix hk hdec
    have hne : more ≠ [] := by
      rintro rfl
      rw [hbytes] at hlen
      exact hpos hlen.symm
    rcases torn_cases h.oneEach t.file with hnil | ⟨x, -, -, hone⟩
    · have hstart := h.atLineStart.mpr hnil
      by_cases hall : more = dumps (.obj t.toWire)
      · -- only the newline is missing, so another state was completely appended
        have hfull : k = (Utf8.encode (dumps (.obj t.toWire))).length := by
          rw [← hlen, hbytes, hall]
        have hexists : ¬ ∀ u, LastState s.acked u → u.id = t.id → u = t :=
          fun hall => hother ⟨hfull, hstart, hall⟩
        simp only [Classical.not_forall] at hexists
        obtain ⟨u, hu, hid, hne⟩ := hexists
        rw [hbytes, hall]
        exact h.toLayout.newline_bad ht hstart hu hid hne
      · apply hbad
        rw [hnil, hbytes]
        exact readLog_behind _ (logLines_torn hpre hne hall)
    · apply hbad
      rw [hone, tornBytes, List.flatMap_singleton, hbytes, ← Utf8.encode_append]
      exact readLog_behind _ (logLines_glued hpre hne)
  · apply hbad
    rw [fileBytes_encode, tornBytes_encode, ← List.append_assoc, ← Utf8.encode_append, readLog]
    rw [← Utf8.isSome_decode_append, Bool.not_eq_true, Option.isSome_eq_false_iff,
      Option.isNone_iff_eq_none] at hdec
    rw [hdec]
    rfl

end Files

/-! ## Runs -/

theorem init_legible : Legible CrashLog.init [] where
  issued := by
    intro t ht
    cases ht
  oneEach := List.nodup_nil
  contents _ := rfl
  only := by
    intro t ht
    cases ht
  count := le_rfl

theorem run_step_isSome (ls : List LogEvent) (s : CrashLog) :
    (run CrashLog.step s ls).isSome = true := by
  induction ls generalizing s with
  | nil => rfl
  | cons l ls ih =>
    cases l with
    | whole t ht => exact ih _
    | cut t ht k hk => exact ih _

/-- TORN TASK LINES.  Over every sequence of appends, cut anywhere: `status` and `list` succeed and
report the last completely appended states in every state the sequence passes, iff each append that
completes finds no torn line and each that is cut leaves nothing, or at the start of a line all but the
newline of a task that has no other completely appended state. -/
theorem torn_task_lines (ls : List LogEvent) :
    (∀ pre, pre <+: ls → ∀ s, run CrashLog.step CrashLog.init pre = some s → s.Reads)
      ↔ Guarded CrashLog.step CleanEvent CrashLog.init ls := by
  refine always_iff_guarded (I := fun s => ∃ torn, Legible s torn) ?_ ?_ ?_ ⟨[], init_legible⟩
    (run_step_isSome ls _)
  · rintro s ⟨torn, h⟩
    exact h.reads
  · rintro s l s' ⟨torn, h⟩ hclean hstep
    cases l with
    | whole t ht =>
      obtain rfl := Option.some.inj hstep
      exact ⟨torn, h.whole ht hclean⟩
    | cut t ht k hk =>
      obtain rfl := Option.some.inj hstep
      rcases hclean with rfl | ⟨rfl, hstart, honly⟩
      · exact ⟨torn, h.cut_nothing t⟩
      · have htake : (lineBytes t.toWire).take (Utf8.encode (dumps (.obj t.toWire))).length
            = Utf8.encode (dumps (.obj t.toWire)) := by
          rw [lineBytes, lineText, Utf8.encode_append, List.take_left]
        rw [htake]
        exact ⟨torn ++ [t], h.cut_newline ht hstart honly⟩
  · rintro s l s' ⟨torn, h⟩ hclean hstep
    cases l with
    | whole t ht =>
      obtain rfl := Option.some.inj hstep
      exact h.whole_bad hclean
    | cut t ht k hk =>
      obtain rfl := Option.some.inj hstep
      exact h.cut_bad ht hk hclean

/-! ## A day that is lost to one line -/

/-- The task of the morning. -/
def morningTask : Task := queryAt morning .done

/-- Another task of that day. -/
def nextTask : Task := { queryAt morning .running with id := newTaskId morning.today aHex.reverse }

theorem aHex_rev_isHex : IsHex aHex.reverse :=
  ⟨rfl, fun c hc => aHex_isHex.2 c (List.mem_reverse.mp hc)⟩

theorem nextTask_issued : nextTask.Issued where
  made := ⟨by simp [nextTask, newTaskId], by simp [nextTask, queryAt]⟩
  id := ⟨morning, aHex.reverse, aHex_rev_isHex, rfl⟩

theorem lineBytes_head (m : Members) : ∃ rest, rest ≠ [] ∧ lineBytes m = 123 :: rest := by
  obtain ⟨body, hbody⟩ := dumps_head m
  have hopen : Utf8.encode ['{'] = [123] := by decide
  refine ⟨Utf8.encode (body ++ ['\n']), ?_, ?_⟩
  · simp [Utf8.encode]
  · have hsplit : '{' :: body ++ ['\n'] = ['{'] ++ (body ++ ['\n']) := rfl
    rw [lineBytes, lineText, hbody, hsplit, Utf8.encode_append, hopen]
    rfl

theorem nextTask_cut : 1 < (lineBytes nextTask.toWire).length := by
  obtain ⟨rest, hrest, hline⟩ := lineBytes_head nextTask.toWire
  rw [hline, List.length_cons]
  have := List.length_pos_of_ne_nil hrest
  omega

/-- One byte of another task's line, and the task that was completely appended has no status. -/
theorem torn_line_loses_day : ∃ s, run CrashLog.step CrashLog.init
      [.whole morningTask (queryAt_issued _ _), .cut nextTask nextTask_issued 1 nextTask_cut] = some s
    ∧ LastState s.acked morningTask ∧ s.dir.status morningTask.id = .error .unreadable := by
  refine ⟨_, rfl, rfl, ?_⟩
  have hread : readLog (lineBytes morningTask.toWire ++ (lineBytes nextTask.toWire).take 1) = none := by
    obtain ⟨rest, -, hline⟩ := lineBytes_head nextTask.toWire
    have hone : (lineBytes nextTask.toWire).take 1 = Utf8.encode ['{'] := by
      rw [hline]
      rfl
    have hopen : logLines ['{'] = none := by decide
    have hbad := readLog_behind [morningTask] hopen
    rw [fileBytes, List.flatMap_singleton, ← hone] at hbad
    exact hbad
  have hds : dsOf morningTask.id = some morning.today := dsOf_newTaskId morning aHex_isHex
  have hfile : morningTask.file = logName morning.today := by
    rw [Task.file, hds]
    rfl
  have hfile' : nextTask.file = logName morning.today := by
    rw [Task.file, show dsOf nextTask.id = some morning.today from dsOf_newTaskId morning aHex_rev_isHex]
    rfl
  -- both lines go to the file of the morning's day
  have hlookup : lookup (logName morning.today) ((LogDir.empty.append morningTask).write nextTask.file
      ((lineBytes nextTask.toWire).take 1)).files
        = some (lineBytes morningTask.toWire ++ (lineBytes nextTask.toWire).take 1) := by
    rw [LogDir.write, lookup_upsert (LogDir.namesNodup _), if_pos hfile', LogDir.append, LogDir.write,
      lookup_upsert (LogDir.namesNodup _), hfile', if_pos hfile]
    rfl
  show LogDir.status ((LogDir.empty.append morningTask).write nextTask.file
    ((lineBytes nextTask.toWire).take 1)) morningTask.id = _
  simp only [LogDir.status, hds, hlookup, hread]

end Seekbase
