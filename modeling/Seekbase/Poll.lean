/-
# Seekbase.Poll — reading a growing file: every complete line once, in order, and nothing twice.

`_read_new_lines` cuts a chunk by the THREE line endings of a byte string and takes a line only if it
ends in a line feed.  What it leaves is left for the next call, so a reader that commits what a call
returns has read, of each file, exactly what lies between two line starts.

* `readChunk_spec`   — the loop over a chunk takes a prefix of its lines;
* `ReadExactly`      — a call, on paths that are each named once;
* `Tail`, `tailStep` — calls with their offsets committed, and appends in between;
* `exact_reading`    — the result, over every run in which no call names a path twice;
* `doubled_path`     — a pattern with several `**` names a path twice, and then its lines come twice;
* `progress_iff`     — a call moves on iff the first line has no return but right before its end.
-/
import Seekbase.Stream

namespace Seekbase

open Lines Transition

/-! ## One chunk -/

section Chunk

variable {maxLines : Nat}

variable (maxLines) in
/-- The loop takes a prefix of the lines, and each of them ends in a line feed. -/
theorem readChunk_spec (raws : List Bytes) (pos : Nat) (lines : List Bytes) : ∃ taken,
    taken <+: raws ∧ (∀ l ∈ taken, l.getLast? = some lf)
      ∧ readChunk maxLines raws pos lines
        = (lines ++ taken.filter (trim · ≠ []), pos + taken.flatten.length) := by
  induction raws generalizing pos lines with
  | nil =>
    refine ⟨[], List.nil_prefix, ?_, ?_⟩
    · intro l hl
      cases hl
    · simp [readChunk]
  | cons raw raws ih =>
    rw [readChunk]
    split
    · refine ⟨[], List.nil_prefix, ?_, ?_⟩
      · intro l hl
        cases hl
      · simp
    · next hgo =>
      rw [not_or, not_not] at hgo
      rcases ih (pos + raw.length) (if trim raw ≠ [] then lines ++ [raw] else lines) with
        ⟨taken, hpre, hends, heq⟩
      refine ⟨raw :: taken, List.cons_prefix_cons.mpr ⟨rfl, hpre⟩, ?_, ?_⟩
      · intro l hl
        rcases List.mem_cons.mp hl with rfl | hl
        · exact hgo.1
        · exact hends l hl
      · rw [heq, List.flatten_cons, List.length_append, Nat.add_assoc]
        split <;> simp [*]

theorem readChunk_few {raws lines : List Bytes} {pos : Nat} (h : lines.length ≤ maxLines) :
    (readChunk maxLines raws pos lines).1.length ≤ maxLines := by
  induction raws generalizing pos lines with
  | nil => exact h
  | cons raw raws ih =>
    rw [readChunk]
    split
    · exact h
    · next hgo =>
      rw [not_or, Nat.not_le] at hgo
      apply ih
      split
      · rw [List.length_append]
        exact hgo.2
      · exact h

end Chunk

/-! ## One call -/

/-- `offsets.get(path, 0)`. -/
def Offsets.start (offsets : Offsets) (path : String) : Nat := (lookup path offsets).getD 0

/-- Where a path is after a call that returned `next`. -/
def moved (offsets next : Offsets) (path : String) : Nat :=
  (lookup path next).getD (offsets.start path)

/-- `offsets.update(next)`. -/
theorem start_update (offsets next : Offsets) (path : String) :
    Offsets.start (dictOf (offsets ++ next)) path = moved offsets next path := by
  rw [Offsets.start, lookup_dictOf, lookup_append, moved]
  cases lookup path next <;> rfl

/-- What a call has added for some paths, each read once. -/
structure ReadExactly (maxLines : Nat) (disk : String → Bytes) (offsets : Offsets)
    (paths : List String) (before : List Bytes × Offsets) (r : List Bytes × Offsets) : Prop where
  few : r.1.length ≤ maxLines
  reads : r.1 = before.1 ++ paths.flatMap fun path =>
    between (disk path) (offsets.start path) (moved offsets r.2 path)
  starts : ∀ path ∈ paths, LineStart (disk path) (moved offsets r.2 path)
    ∧ offsets.start path ≤ moved offsets r.2 path
  others : ∀ path, path ∉ paths → lookup path r.2 = lookup path before.2

section Call

variable {maxLines : Nat} {disk : String → Bytes} {offsets : Offsets}

theorem moved_none {next : Offsets} {path : String} (h : lookup path next = none) :
    moved offsets next path = offsets.start path := by
  rw [moved, h]
  rfl

theorem lookup_entry {next : Offsets} {path other : String} (h : other ≠ path) (start pos : Nat) :
    lookup other (if start < pos then next ++ [(path, pos)] else next) = lookup other next := by
  split
  · rw [lookup_append]
    simp [lookup, Ne.symm h]
  · rfl

/-- The entry of a path says where it is, also where there is none because it has not moved. -/
theorem moved_entry {next : Offsets} {path : String} {pos : Nat} (h : lookup path next = none)
    (hle : offsets.start path ≤ pos) : moved offsets
      (if offsets.start path < pos then next ++ [(path, pos)] else next) path = pos := by
  split
  · rw [moved, lookup_append]
    simp [lookup]
  · rw [moved_none h]
    omega

theorem readPaths_exact {opened : String → Option Bytes}
    (hopen : ∀ path content, opened path = some content → content <+: disk path)
    (hstart : ∀ path, LineStart (disk path) (offsets.start path)) {paths : List String}
    (hnodup : paths.Nodup) {lines : List Bytes} {next : Offsets} (hfew : lines.length ≤ maxLines)
    (hnone : ∀ path ∈ paths, lookup path next = none) :
    ReadExactly maxLines disk offsets paths (lines, next)
      (readPaths maxLines opened offsets paths lines next) := by
  induction paths generalizing lines next with
  | nil =>
    refine ⟨hfew, (List.append_nil _).symm, ?_, fun _ _ => rfl⟩
    intro path hpath
    cases hpath
  | cons path paths ih =>
    rcases List.nodup_cons.mp hnodup with ⟨hnot, hnodup⟩
    rw [readPaths]
    split
    · -- the budget is spent: no path has moved
      have hstay : ∀ other ∈ path :: paths, moved offsets next other = offsets.start other :=
        fun other hother => moved_none (hnone other hother)
      refine ⟨hfew, ?_, ?_, fun _ _ => rfl⟩
      · have hnil : ((path :: paths).flatMap fun other =>
            between (disk other) (offsets.start other) (moved offsets next other)) = [] := by
          rw [List.flatMap_eq_nil_iff]
          intro other hother
          rw [hstay other hother, between_self]
        show lines = lines ++ _
        rw [hnil, List.append_nil]
      · intro other hother
        show LineStart _ (moved offsets next other) ∧ _ ≤ moved offsets next other
        rw [hstay other hother]
        exact ⟨hstart other, le_rfl⟩
    · split
      · -- the file cannot be opened
        have hrest := ih hnodup hfew fun other hother => hnone other (List.mem_cons_of_mem _ hother)
        have hlook := hrest.others path hnot
        have hstay : moved offsets (readPaths maxLines opened offsets paths lines next).2 path
            = offsets.start path := moved_none (hlook.trans (hnone path List.mem_cons_self))
        refine ⟨hrest.few, ?_, ?_, ?_⟩
        · rw [List.flatMap_cons, hstay, between_self, List.nil_append]
          exact hrest.reads
        · intro other hother
          rcases List.mem_cons.mp hother with rfl | hother
          · rw [hstay]
            exact ⟨hstart other, le_rfl⟩
          · exact hrest.starts other hother
        · intro other hother
          exact hrest.others other fun hin => hother (List.mem_cons_of_mem _ hin)
      · next content hcontent =>
        have hbegin : (lookup path offsets).getD 0 = offsets.start path := rfl
        dsimp only
        rw [hbegin]
        rcases readChunk_spec maxLines (splitLines (content.drop (offsets.start path)))
          (offsets.start path) lines with ⟨taken, htaken, hends, heq⟩
        have hflat : taken.flatten <+: (disk path).drop (offsets.start path) :=
          taken_prefix (hopen path content hcontent) htaken
        have hlines : ∀ l ∈ taken, IsLine l := fun l hl =>
          isLine_of_mem (htaken.subset hl) (hends l hl)
        have hread := between_extend (hstart path).le hflat hlines
        have hfew' : (readChunk maxLines (splitLines (content.drop (offsets.start path)))
            (offsets.start path) lines).1.length ≤ maxLines := readChunk_few hfew
        rw [heq] at hfew' ⊢
        dsimp only at hfew' ⊢
        have hnone' : ∀ other ∈ paths, lookup other
            (if offsets.start path < offsets.start path + taken.flatten.length then
              next ++ [(path, offsets.start path + taken.flatten.length)] else next) = none := by
          intro other hother
          have hne : other ≠ path := fun heq => hnot (heq ▸ hother)
          rw [lookup_entry hne]
          exact hnone other (List.mem_cons_of_mem _ hother)
        have hrest := ih hnodup hfew' hnone'
        have hmoved : moved offsets (readPaths maxLines opened offsets paths _ _).2 path
            = offsets.start path + taken.flatten.length :=
          (congrArg (Option.getD · _) (hrest.others path hnot)).trans
            (moved_entry (hnone path List.mem_cons_self) (Nat.le_add_right _ _))
        refine ⟨hrest.few, ?_, ?_, ?_⟩
        · rw [List.flatMap_cons, hmoved, hread, ← List.append_assoc]
          exact hrest.reads
        · intro other hother
          rcases List.mem_cons.mp hother with rfl | hother
          · rw [hmoved]
            exact ⟨(hstart other).extend hflat hends, Nat.le_add_right _ _⟩
          · exact hrest.starts other hother
        · intro other hother
          rw [List.mem_cons, not_or] at hother
          exact (hrest.others other hother.2).trans (lookup_entry hother.1 _ _)

end Call

/-! ## Calls, commits and appends -/

/-- A call: the paths it read, the offsets it had and those that were committed, and its lines. -/
structure Poll where
  paths : List String
  before : Offsets
  after : Offsets
  lines : List Bytes

structure Tail where
  disk : String → Bytes
  offsets : Offsets
  polls : List Poll

inductive TailLabel where
  | append (path : String) (bytes : Bytes)
  /-- A call, with what the pattern matches and how much of each file it saw. -/
  | poll (glob : List String) (seen : String → Option Nat)

def tailStep (maxLines : Nat) (t : Tail) : TailLabel → Option Tail
  | .append path bytes =>
    some { t with disk := Function.update t.disk path (t.disk path ++ bytes) }
  | .poll glob seen =>
    let r := readNewLines maxLines glob (fun path => (seen path).map (t.disk path).take) t.offsets
    let after := dictOf (t.offsets ++ r.2)
    some { t with
      offsets := after
      polls := t.polls ++ [⟨glob.insertionSort (· ≤ ·), t.offsets, after, r.1⟩] }

/-- The pattern matches no path twice. -/
def TailLabel.OneEach : TailLabel → Prop
  | .append _ _ => True
  | .poll glob _ => glob.Nodup

/-- The lines of a file between the offsets of a call. -/
def Poll.share (disk : String → Bytes) (path : String) (p : Poll) : List Bytes :=
  between (disk path) (p.before.start path) (p.after.start path)

/-- What has been read since the offsets `first`. -/
structure Tail.Exact (maxLines : Nat) (first : Offsets) (t : Tail) : Prop where
  few : ∀ p ∈ t.polls, p.lines.length ≤ maxLines
  reads : ∀ p ∈ t.polls, p.paths.Nodup ∧ p.lines = p.paths.flatMap fun path => p.share t.disk path
  total : ∀ path, t.polls.flatMap (Poll.share t.disk path)
    = between (t.disk path) (first.start path) (t.offsets.start path)
  starts : ∀ path, LineStart (t.disk path) (t.offsets.start path)
    ∧ first.start path ≤ t.offsets.start path
  inside : ∀ p ∈ t.polls, ∀ path, p.after.start path ≤ (t.disk path).length

section Runs

variable {maxLines : Nat} {first : Offsets} {t u : Tail}

theorem between_update {disk : String → Bytes} {other : String} {a b : Nat}
    (h : b ≤ (disk other).length) (path : String) (bytes : Bytes) :
    between (Function.update disk path (disk path ++ bytes) other) a b
      = between (disk other) a b := by
  by_cases hp : other = path
  · subst hp
    rw [Function.update_self]
    exact between_grow h bytes
  · rw [Function.update_of_ne hp]

theorem length_update (disk : String → Bytes) (other path : String) (bytes : Bytes) :
    (disk other).length ≤ (Function.update disk path (disk path ++ bytes) other).length := by
  by_cases hp : other = path
  · subst hp
    rw [Function.update_self, List.length_append]
    omega
  · rw [Function.update_of_ne hp]

theorem lineStart_update {disk : String → Bytes} {other : String} {off : Nat}
    (h : LineStart (disk other) off) (path : String) (bytes : Bytes) :
    LineStart (Function.update disk path (disk path ++ bytes) other) off := by
  by_cases hp : other = path
  · subst hp
    rw [Function.update_self]
    exact h.grow bytes
  · rw [Function.update_of_ne hp]
    exact h

theorem share_update {disk : String → Bytes} {other : String} {p : Poll}
    (h : p.after.start other ≤ (disk other).length) (path : String) (bytes : Bytes) :
    p.share (Function.update disk path (disk path ++ bytes)) other = p.share disk other :=
  between_update h path bytes

/-- An append changes nothing of what has been read. -/
theorem append_exact (h : t.Exact maxLines first) (path : String) (bytes : Bytes) :
    Tail.Exact maxLines first
      { t with disk := Function.update t.disk path (t.disk path ++ bytes) } where
  few := h.few
  reads := by
    intro p hp
    refine ⟨(h.reads p hp).1, ?_⟩
    rw [(h.reads p hp).2]
    refine List.flatMap_congr fun other _ => ?_
    exact (share_update (h.inside p hp other) path bytes).symm
  total := by
    intro other
    rw [between_update (h.starts other).1.le, ← h.total other]
    refine List.flatMap_congr fun p hp => ?_
    exact share_update (h.inside p hp other) path bytes
  starts := by
    intro other
    exact ⟨lineStart_update (h.starts other).1 path bytes, (h.starts other).2⟩
  inside := by
    intro p hp other
    exact (h.inside p hp other).trans (length_update t.disk other path bytes)

/-- A call reads on from where the last one stopped. -/
theorem poll_exact (h : t.Exact maxLines first) {glob : List String} (hnodup : glob.Nodup)
    {seen : String → Option Nat} (hs : tailStep maxLines t (.poll glob seen) = some u) :
    u.Exact maxLines first := by
  rcases Option.some.inj hs with rfl
  have hsorted : (glob.insertionSort (· ≤ ·)).Nodup :=
    (List.perm_insertionSort _ _).nodup_iff.mpr hnodup
  have hopen : ∀ path content, (seen path).map (t.disk path).take = some content →
      content <+: t.disk path := by
    intro path content hcontent
    rcases Option.map_eq_some_iff.mp hcontent with ⟨n, -, rfl⟩
    exact List.take_prefix _ _
  have hread : ReadExactly maxLines t.disk t.offsets (glob.insertionSort (· ≤ ·)) ([], [])
      (readNewLines maxLines glob (fun path => (seen path).map (t.disk path).take) t.offsets) :=
    readPaths_exact hopen (fun path => (h.starts path).1) hsorted (Nat.zero_le _) fun _ _ => rfl
  have hstarts : ∀ path, LineStart (t.disk path) (moved t.offsets
      (readNewLines maxLines glob (fun path => (seen path).map (t.disk path).take) t.offsets).2 path)
        ∧ t.offsets.start path ≤ moved t.offsets (readNewLines maxLines glob
          (fun path => (seen path).map (t.disk path).take) t.offsets).2 path := by
    intro path
    by_cases hin : path ∈ glob.insertionSort (· ≤ ·)
    · exact hread.starts path hin
    · rw [moved_none (hread.others path hin)]
      exact ⟨(h.starts path).1, le_rfl⟩
  constructor
  · intro p hp
    rcases List.mem_append.mp hp with hp | hp
    · exact h.few p hp
    · rw [List.mem_singleton.mp hp]
      exact hread.few
  · intro p hp
    rcases List.mem_append.mp hp with hp | hp
    · exact h.reads p hp
    · rw [List.mem_singleton.mp hp]
      refine ⟨hsorted, hread.reads.trans ?_⟩
      refine List.flatMap_congr fun path _ => ?_
      rw [Poll.share, start_update]
  · intro path
    have hnext := hstarts path
    show (t.polls ++ [_]).flatMap _ = _
    rw [List.flatMap_append, h.total path, List.flatMap_singleton, Poll.share, start_update]
    exact between_append (h.starts path).2 hnext.2 (h.starts path).1
  · intro path
    have hnext := hstarts path
    show LineStart (t.disk path) (Offsets.start (dictOf _) path)
      ∧ first.start path ≤ Offsets.start (dictOf _) path
    rw [start_update]
    exact ⟨hnext.1, (h.starts path).2.trans hnext.2⟩
  · intro p hp path
    rcases List.mem_append.mp hp with hp | hp
    · exact h.inside p hp path
    · rw [List.mem_singleton.mp hp, start_update]
      exact (hstarts path).1.le

theorem tail_step_exact (h : t.Exact maxLines first) {l : TailLabel} (hl : l.OneEach)
    (hs : tailStep maxLines t l = some u) : u.Exact maxLines first := by
  cases l with
  | append path bytes =>
    rcases Option.some.inj hs with rfl
    exact append_exact h path bytes
  | poll glob seen => exact poll_exact h hl hs

/-- Each call returns at most so many lines, and these are the lines of each of its files between the
offsets before and after it; all calls together return, of each file, its lines between the first
and the last offset, each once and in order.  An offset is never past the last line feed. -/
theorem exact_reading {disk : String → Bytes} {offsets : Offsets} {labels : List TailLabel}
    (hstart : ∀ path, LineStart (disk path) (offsets.start path))
    (hone : ∀ l ∈ labels, l.OneEach)
    (hrun : run (tailStep maxLines) ⟨disk, offsets, []⟩ labels = some t) :
    (∀ p ∈ t.polls, p.lines.length ≤ maxLines
        ∧ p.paths.Nodup ∧ p.lines = p.paths.flatMap fun path => p.share t.disk path)
      ∧ (∀ path, t.polls.flatMap (Poll.share t.disk path)
        = between (t.disk path) (offsets.start path) (t.offsets.start path))
      ∧ (∀ path, LineStart (t.disk path) (t.offsets.start path))
      ∧ ∀ path, t.offsets.start path ≤ (completeLines (t.disk path)).flatten.length := by
  have hinit : Tail.Exact maxLines offsets ⟨disk, offsets, []⟩ := by
    refine ⟨?_, ?_, ?_, fun path => ⟨hstart path, le_rfl⟩, ?_⟩
    · intro p hp
      cases hp
    · intro p hp
      cases hp
    · intro path
      exact (between_self _ _).symm
    · intro p hp
      cases hp
  have hguard : Guarded (tailStep maxLines) (fun _ l => l.OneEach) ⟨disk, offsets, []⟩ labels :=
    Guarded.of_forall fun l hl _ => hone l hl
  have hexact := run_guarded (fun _ _ _ h hl hs => tail_step_exact h hl hs) hinit hguard hrun
  refine ⟨fun p hp => ⟨hexact.few p hp, hexact.reads p hp⟩, hexact.total, ?_, ?_⟩
  · intro path
    exact (hexact.starts path).1
  · intro path
    exact (hexact.starts path).1.le_complete

end Runs

/-- One line and the start of another, which is completed later. -/
def growingNote : List TailLabel :=
  [.poll ["a"] (fun _ => some 9), .append "a" [121, lf], .poll ["a"] fun _ => some 9]

def halfNote (path : String) : Bytes := if path = "a" then [120, cr, lf, lf, 120] else []

theorem exact_reading_note : ∃ t, run (tailStep 1) ⟨halfNote, [], []⟩ growingNote = some t
    ∧ t.polls.map Poll.lines = [[[120, cr, lf]], [[120, 121, lf]]]
    ∧ t.polls.flatMap (Poll.share t.disk "a") = between (t.disk "a") 0 (t.offsets.start "a") := by
  have hlines : (run (tailStep 1) ⟨halfNote, [], []⟩ growingNote).map
      (fun t => t.polls.map Poll.lines) = some [[[120, cr, lf]], [[120, 121, lf]]] := by
    decide +kernel
  rcases Option.map_eq_some_iff.mp hlines with ⟨t, hrun, hpolls⟩
  have hone : ∀ l ∈ growingNote, l.OneEach := by
    simp [growingNote, TailLabel.OneEach]
  exact ⟨t, hrun, hpolls, (exact_reading (fun _ => Or.inl rfl) hone hrun).2.1 "a"⟩

/-- A pattern such as `x/**/**/a` matches a path twice, and a call then returns its lines twice. -/
theorem doubled_path : ∃ t,
    run (tailStep 10) ⟨fun path => if path = "a" then [120, lf] else [], [], []⟩
        [.poll ["a", "a"] fun _ => some 2] = some t
      ∧ t.polls.flatMap Poll.lines = [[120, lf], [120, lf]]
      ∧ between (t.disk "a") 0 (t.offsets.start "a") = [[120, lf]] := by
  have hlines : (run (tailStep 10) ⟨fun path => if path = "a" then [120, lf] else [], [], []⟩
      [.poll ["a", "a"] fun _ => some 2]).map (fun t => (t.polls.flatMap Poll.lines,
        between (t.disk "a") 0 (t.offsets.start "a"))) = some ([[120, lf], [120, lf]], [[120, lf]]) := by
    decide +kernel
  rcases Option.map_eq_some_iff.mp hlines with ⟨t, hrun, hpolls⟩
  exact ⟨t, hrun, Prod.mk.inj hpolls⟩

/-! ## Progress -/

/-- A call moves on iff its first line ends in a line feed. -/
theorem moves_iff {maxLines : Nat} (hmax : 1 ≤ maxLines) {content : Bytes} {off : Nat}
    (h : content.drop off ≠ []) (path : String) :
    (∃ o, lookup path (readNewLines maxLines [path] (fun _ => some content) [(path, off)]).2 = some o
        ∧ off < o)
      ↔ ∃ l ls, splitLines (content.drop off) = l :: ls ∧ l.getLast? = some lf := by
  have hlook : (lookup path [(path, off)]).getD 0 = off := by simp [lookup]
  have hbudget : ¬ maxLines ≤ 0 := by omega
  rcases List.exists_cons_of_ne_nil (splitLines_eq_nil.not.mpr h) with ⟨l, ls, hs⟩
  have hcall : (readNewLines maxLines [path] (fun _ => some content) [(path, off)]).2
      = if off < (readChunk maxLines (l :: ls) off []).2 then
        [(path, (readChunk maxLines (l :: ls) off []).2)] else [] := by
    simp [readNewLines, readPaths, hlook, hbudget, hs]
  have hgo : (∃ o, lookup path (readNewLines maxLines [path] (fun _ => some content)
      [(path, off)]).2 = some o ∧ off < o) ↔ off < (readChunk maxLines (l :: ls) off []).2 := by
    rw [hcall]
    split
    · next hlt => simp [lookup, hlt]
    · next hnot => simp [lookup, hnot]
  rw [hgo, readChunk, hs]
  by_cases hends : l.getLast? = some lf
  · have hl : 0 < l.length := by
      apply List.length_pos_of_ne_nil
      rintro rfl
      cases hends
    rw [if_neg (by simpa [hends] using hbudget)]
    rcases readChunk_spec maxLines ls (off + l.length) (if trim l ≠ [] then [] ++ [l] else []) with
      ⟨taken, -, -, heq⟩
    rw [heq]
    refine iff_of_true ?_ ⟨l, ls, rfl, hends⟩
    show off < off + l.length + taken.flatten.length
    omega
  · rw [if_pos (Or.inl hends)]
    refine iff_of_false (Nat.lt_irrefl off) ?_
    rintro ⟨x, xs, hx, hlast⟩
    rcases (List.cons.inj hx).1 with rfl
    exact hends hlast

/-- A call on a file with a line feed ahead moves on iff up to the first one there is no carriage
return, but for one right before it. -/
theorem progress_iff {maxLines : Nat} (hmax : 1 ≤ maxLines) {content : Bytes} {off : Nat}
    (hlf : lf ∈ content.drop off) (path : String) :
    (∃ o, lookup path (readNewLines maxLines [path] (fun _ => some content) [(path, off)]).2 = some o
        ∧ off < o)
      ↔ cr ∉ ((content.drop off).takeWhile (· ≠ lf)).dropLast :=
  (moves_iff hmax (List.ne_nil_of_mem hlf) path).trans (first_line_iff hlf)

theorem progress_note : (∃ o, lookup "a" (readNewLines 1 ["a"] (fun _ => some [120, cr, lf])
    [("a", 0)]).2 = some o ∧ 0 < o) :=
  (@progress_iff 1 (le_refl 1) [120, cr, lf] 0 (by decide) "a").mpr (by decide)

/-- `x\ry\n`: a return inside the first line, and the file is stuck where it is. -/
theorem stuck_line : lf ∈ [120, cr, 121, lf].drop 0 ∧ LineStart [120, cr, 121, lf] 0
    ∧ readNewLines 1000 ["a"] (fun _ => some [120, cr, 121, lf]) [("a", 0)] = ([], []) := by
  refine ⟨by decide, Or.inl rfl, ?_⟩
  decide +kernel

end Seekbase
