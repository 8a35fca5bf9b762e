/-
# Seekbase.Drain — a stream that is left alone catches up.

What a stream has not read yet is a queue: path by path, the lines of each file past its offset that are
whole and not blank, up to the first that ends in a bare carriage return, past which no call gets.  A call
takes the first `batch` lines of that queue, and a commit of its offsets leaves the rest.  So the landings
of a stream whose files have stopped growing are counted against the length of the queue.

* `ahead`, `pending` — the queue;
* `readChunk_dequeues`, `readPaths_dequeues` — the two loops;
* `poll_dequeues`    — a call and its commit;
* `Standing`         — the queue as a running stream has left it, wherever the stream is in its round;
* `stream_drains`    — enough landings, and everything whole that the files hold is in the table.
-/
import Seekbase.Delivery

namespace Seekbase

open JsonText Lines Transition

/-! ## The queue -/

/-- Whole lines that are not blank, up to the first that is not whole. -/
def wholeLines (raws : List Bytes) : List Bytes :=
  (raws.takeWhile (·.getLast? = some lf)).filter (trim · ≠ [])

/-- What a reader still gets of a file. -/
def ahead (content : Bytes) (off : Nat) : List Bytes := wholeLines (splitLines (content.drop off))

/-- What a reader at these offsets still gets of the files, path by path. -/
def pending (opened : String → Option Bytes) (start : String → Nat) (paths : List String) : List Bytes :=
  paths.flatMap fun path => (opened path).elim [] fun content => ahead content (start path)

section Queue

variable {maxLines : Nat} {raws lines taken rest : List Bytes} {raw : Bytes} {pos : Nat}

theorem wholeLines_cons (h : raw.getLast? = some lf) : wholeLines (raw :: raws)
    = if trim raw ≠ [] then raw :: wholeLines raws else wholeLines raws := by
  unfold wholeLines
  rw [List.takeWhile_cons_of_pos (by simpa using h), List.filter_cons]
  simp only [decide_eq_true_eq]

theorem wholeLines_stuck (h : raw.getLast? ≠ some lf) : wholeLines (raw :: raws) = [] := by
  unfold wholeLines
  rw [List.takeWhile_cons_of_neg (by simpa using h)]
  rfl

theorem wholeLines_append (h : ∀ l ∈ taken, l.getLast? = some lf) :
    wholeLines (taken ++ rest) = taken.filter (trim · ≠ []) ++ wholeLines rest := by
  unfold wholeLines
  rw [List.takeWhile_append_of_pos (by simpa using h), List.filter_append]

variable (raws pos) in
/-- The loop over a chunk takes the first whole lines that its budget allows, and leaves the others. -/
theorem readChunk_dequeues (hfew : lines.length ≤ maxLines) : ∃ taken rest, raws = taken ++ rest
    ∧ (∀ l ∈ taken, l.getLast? = some lf)
    ∧ readChunk maxLines raws pos lines
      = (lines ++ (wholeLines raws).take (maxLines - lines.length), pos + taken.flatten.length)
    ∧ wholeLines rest = (wholeLines raws).drop (maxLines - lines.length) := by
  induction raws generalizing pos lines with
  | nil => exact ⟨[], [], rfl, by simp, by simp [readChunk, wholeLines], by simp [wholeLines]⟩
  | cons raw raws ih =>
    rw [readChunk]
    split
    · next hstop =>
      refine ⟨[], raw :: raws, rfl, by simp, ?_, ?_⟩
      · rcases hstop with hends | hfull
        · simp [wholeLines_stuck hends]
        · simp [Nat.sub_eq_zero_of_le hfull]
      · rcases hstop with hends | hfull
        · simp [wholeLines_stuck hends]
        · simp [Nat.sub_eq_zero_of_le hfull]
    · next hgo =>
      rw [not_or, not_not, Nat.not_le] at hgo
      obtain ⟨hends, hroom⟩ := hgo
      by_cases hblank : trim raw ≠ []
      · rw [if_pos hblank, wholeLines_cons hends, if_pos hblank]
        have hlen : (lines ++ [raw]).length = lines.length + 1 := by simp
        have hfew' : (lines ++ [raw]).length ≤ maxLines := by omega
        obtain ⟨taken, rest, rfl, htaken, hread, hrest⟩ := ih (pos + raw.length) hfew'
        have hbudget : maxLines - lines.length = maxLines - (lines ++ [raw]).length + 1 := by omega
        refine ⟨raw :: taken, rest, rfl, ?_, ?_, ?_⟩
        · exact List.forall_mem_cons.mpr ⟨hends, htaken⟩
        · rw [hread, hbudget, List.take_succ_cons]
          refine Prod.ext (List.append_assoc _ _ _) ?_
          show pos + raw.length + taken.flatten.length = pos + (raw ++ taken.flatten).length
          rw [List.length_append, Nat.add_assoc]
        · rw [hrest, hbudget, List.drop_succ_cons]
      · rw [if_neg hblank, wholeLines_cons hends, if_neg hblank]
        obtain ⟨taken, rest, rfl, htaken, hread, hrest⟩ := ih (pos + raw.length) hfew
        refine ⟨raw :: taken, rest, rfl, List.forall_mem_cons.mpr ⟨hends, htaken⟩, ?_, hrest⟩
        rw [hread, List.flatten_cons]
        show (_, pos + raw.length + _) = (_, pos + (raw ++ taken.flatten).length)
        rw [List.length_append, Nat.add_assoc]

/-- Past the lines that were taken the others are split as they were. -/
theorem splitLines_rest {bs : Bytes} (hs : splitLines bs = taken ++ rest)
    (htaken : ∀ l ∈ taken, l.getLast? = some lf) : splitLines (bs.drop taken.flatten.length) = rest := by
  have hflat : bs = taken.flatten ++ rest.flatten := by
    rw [← List.flatten_append, ← hs, flatten_splitLines]
  have hline : ∀ l ∈ taken, IsLine l := fun l hl =>
    isLine_of_mem (hs ▸ List.mem_append_left rest hl) (htaken l hl)
  have hsplit : splitLines bs = taken ++ splitLines rest.flatten := by
    rcases getLast?_flatten_lines htaken with hnil | hlast
    · have htakenNil : taken = [] := by rw [← splitLines_flatten hline, hnil]; rfl
      rw [hflat, htakenNil]
      rfl
    · rw [hflat, splitLines_append hlast, splitLines_flatten hline]
  rw [hflat, List.drop_left]
  exact List.append_cancel_left (hsplit.symm.trans hs)

variable {opened : String → Option Bytes} {offsets : Offsets} {paths : List String}

theorem pending_congr {start start' : String → Nat} (h : ∀ path ∈ paths, start path = start' path) :
    pending opened start paths = pending opened start' paths :=
  List.flatMap_congr fun path hpath => by rw [h path hpath]

/-- The loop over the paths takes the first lines of the queue that its budget allows, and leaves the
others. -/
theorem readPaths_dequeues (hnodup : paths.Nodup) {next : Offsets}
    (hnone : ∀ path ∈ paths, lookup path next = none) (hfew : lines.length ≤ maxLines) :
    (readPaths maxLines opened offsets paths lines next).1
        = lines ++ (pending opened offsets.start paths).take (maxLines - lines.length)
      ∧ pending opened (moved offsets (readPaths maxLines opened offsets paths lines next).2) paths
        = (pending opened offsets.start paths).drop (maxLines - lines.length)
      ∧ ∀ path, path ∉ paths →
        lookup path (readPaths maxLines opened offsets paths lines next).2 = lookup path next := by
  induction paths generalizing lines next with
  | nil => exact ⟨by simp [readPaths, pending], by simp [pending], fun _ _ => rfl⟩
  | cons path paths ih =>
    obtain ⟨hnot, hnodup⟩ := List.nodup_cons.mp hnodup
    have hnone' := fun other hother => hnone other (List.mem_cons_of_mem path hother)
    rw [readPaths]
    split
    · next hfull =>
      -- the budget is spent
      rw [Nat.sub_eq_zero_of_le hfull, List.take_zero, List.append_nil, List.drop_zero]
      exact ⟨rfl, pending_congr fun other hother => moved_none (hnone other hother), fun _ _ => rfl⟩
    · split
      · next hclosed =>
        have hskip : ∀ start, pending opened start (path :: paths) = pending opened start paths := by
          intro start
          simp [pending, hclosed]
        obtain ⟨hlines, hrest, hothers⟩ := ih hnodup hnone' hfew
        rw [hskip, hskip]
        refine ⟨hlines, hrest, fun other hother => hothers other ?_⟩
        exact fun hin => hother (List.mem_cons_of_mem path hin)
      · next content hcontent =>
        have hfirst : ∀ start, pending opened start (path :: paths)
            = ahead content (start path) ++ pending opened start paths := by
          intro start
          simp [pending, hcontent]
        have hbegin : (lookup path offsets).getD 0 = offsets.start path := rfl
        dsimp only
        rw [hbegin]
        obtain ⟨taken, rest, hraws, htaken, hread, hleft⟩ := readChunk_dequeues
          (splitLines (content.drop (offsets.start path))) (offsets.start path) hfew
        rw [hread]
        dsimp only
        have hlen : (lines ++ (ahead content (offsets.start path)).take (maxLines - lines.length)).length
            = lines.length + min (maxLines - lines.length) (ahead content (offsets.start path)).length := by
          rw [List.length_append, List.length_take]
        have hnone'' : ∀ other ∈ paths, lookup other
            (if offsets.start path < offsets.start path + taken.flatten.length then
              next ++ [(path, offsets.start path + taken.flatten.length)] else next) = none := by
          intro other hother
          have hne : other ≠ path := fun heq => hnot (heq ▸ hother)
          rw [lookup_entry hne]
          exact hnone' other hother
        have hfew' : (lines ++ (ahead content (offsets.start path)).take
            (maxLines - lines.length)).length ≤ maxLines := by omega
        obtain ⟨hlines, hrest, hothers⟩ := ih hnodup hnone'' hfew'
        have hmoved : moved offsets (readPaths maxLines opened offsets paths _ _).2 path
            = offsets.start path + taken.flatten.length :=
          (congrArg (Option.getD · _) (hothers path hnot)).trans
            (moved_entry (hnone path List.mem_cons_self) (Nat.le_add_right _ _))
        have hbudget : maxLines
              - (lines ++ (ahead content (offsets.start path)).take (maxLines - lines.length)).length
            = maxLines - lines.length - (ahead content (offsets.start path)).length := by
          omega
        refine ⟨?_, ?_, fun other hother => ?_⟩
        · refine hlines.trans ?_
          rw [hfirst, hbudget, List.take_append, List.append_assoc]
        · rw [hfirst, hfirst, List.drop_append, ← hbudget]
          refine congrArg₂ (· ++ ·) ?_ hrest
          refine (congrArg (ahead content) hmoved).trans ?_
          unfold ahead
          rw [← hleft, ← List.drop_drop, splitLines_rest hraws htaken]
        · rw [List.mem_cons, not_or] at hother
          exact (hothers other hother.2).trans (lookup_entry hother.1 _ _)

variable (maxLines opened offsets) in
/-- A call returns the first `max_lines` lines of what is still to be read, path by path, and when its
offsets are committed the others are what is still to be read. -/
theorem poll_dequeues {glob : List String} (hglob : glob.Nodup) :
    (readNewLines maxLines glob opened offsets).1
        = (pending opened offsets.start (glob.insertionSort (· ≤ ·))).take maxLines
      ∧ pending opened (Offsets.start (dictOf (offsets ++ (readNewLines maxLines glob opened offsets).2)))
          (glob.insertionSort (· ≤ ·))
        = (pending opened offsets.start (glob.insertionSort (· ≤ ·))).drop maxLines := by
  have hsorted : (glob.insertionSort (· ≤ ·)).Nodup :=
    (List.perm_insertionSort _ _).nodup_iff.mpr hglob
  have hread := @readPaths_dequeues maxLines [] opened offsets _ hsorted [] (fun _ _ => rfl)
    (Nat.zero_le maxLines)
  refine ⟨hread.1, (pending_congr fun path _ => ?_).trans hread.2.1⟩
  exact start_update _ _ path

end Queue

/-- Two files: one with a blank line and an unfinished one, one whose second line ends in a bare return. -/
def twoFiles (path : String) : Option Bytes :=
  if path = "a" then some [120, lf, lf, 121, lf, 122]
  else if path = "b" then some [120, lf, 121, cr, 122, lf] else none

theorem poll_dequeues_two :
    (readNewLines 2 ["b", "c", "a"] twoFiles []).1 = [[120, lf], [121, lf]]
      ∧ pending twoFiles (Offsets.start (dictOf ([] ++ (readNewLines 2 ["b", "c", "a"] twoFiles []).2)))
          ["a", "b", "c"] = [[120, lf]] := by
  have hsorted : ["b", "c", "a"].insertionSort (· ≤ ·) = ["a", "b", "c"] := by decide +kernel
  have hpending : pending twoFiles (Offsets.start []) ["a", "b", "c"]
      = [[120, lf], [121, lf], [120, lf]] := by decide +kernel
  have hread := poll_dequeues 2 twoFiles [] (by decide : ["b", "c", "a"].Nodup)
  rw [hsorted, hpending] at hread
  exact hread

/-- What spans to an offset and what is ahead of it is what the file holds. -/
theorem spans_whole {P : Bytes → Prop} {content : Bytes} {off : Nat} (h : Spans P content off) :
    ∃ ls, wholeLines (splitLines content) = ls ++ ahead content off ∧ ∀ l ∈ ls, P l := by
  obtain ⟨ls, rfl, ⟨rest, rfl⟩, hls⟩ := h
  have hline : ∀ l ∈ ls, IsLine l := fun l hl => (hls l hl).1
  have hends : ∀ l ∈ ls, l.getLast? = some lf := fun l hl => (hline l hl).ends
  have hsplit : splitLines (ls.flatten ++ rest) = ls ++ splitLines rest := by
    rcases getLast?_flatten_lines hends with hnil | hlast
    · have hlsNil : ls = [] := by rw [← splitLines_flatten hline, hnil]; rfl
      rw [hlsNil]
      rfl
    · rw [splitLines_append hlast, splitLines_flatten hline]
  refine ⟨ls.filter (trim · ≠ []), ?_, fun l hl => ?_⟩
  · unfold ahead
    rw [hsplit, wholeLines_append hends, List.drop_left]
  · obtain ⟨hl, hne⟩ := List.mem_filter.mp hl
    exact (hls l hl).2 (by simpa using hne)

/-! ## The stream -/

/-- What the stream would still get of its files at these offsets. -/
def Feed.queue (f : Feed) (paths : List String) (offsets : Offsets) : List Bytes :=
  pending (fun path => some (f.disk path)) offsets.start paths

/-- The files are left alone and the pattern matches these; a call sees all there is; and the stream goes
on or dies, but is not stopped or started again. -/
def FeedLabel.Calm (paths : List String) (f : Feed) : FeedLabel → Prop
  | .poll glob seen => glob.insertionSort (· ≤ ·) = paths
    ∧ ∀ path ∈ paths, ∃ n, seen path = some n ∧ (f.disk path).length ≤ n
  | .store _ | .take | .land | .checkpoint | .die => True
  | .append _ _ | .start _ | .stop | .crash => False

/-- A round of the stream has come to its end. -/
def FeedLabel.isCheckpoint : FeedLabel → Bool
  | .checkpoint => true
  | _ => false

/-- The queue after so many rounds, wherever the stream is in the next: `queue` is what it was at first.
While a batch lands the offsets are still those before it. -/
def Standing (maxLines : Nat) (paths : List String) (queue : List Bytes) (rounds : Nat) (f : Feed) :
    Prop :=
  ∀ t ∈ f.task, t.stopping = false ∧ match t.doing with
    | .reading => f.queue paths t.offsets = queue.drop (rounds * maxLines)
    | .landing _ next _ _ => f.queue paths t.offsets = queue.drop (rounds * maxLines)
      ∧ f.queue paths (dictOf (t.offsets ++ next)) = queue.drop ((rounds + 1) * maxLines)
    | .landed _ => f.queue paths t.offsets = queue.drop ((rounds + 1) * maxLines)

section Stream

variable {env : Env} {schema : Schema} {spec : TableSpec} {maxLines rounds : Nat} {why : Bytes → String}
  {f g : Feed} {paths : List String} {queue : List Bytes}

/-- A call that sees the files whole. -/
theorem opened_queue {seen : String → Option Nat} (offsets : Offsets)
    (hseen : ∀ path ∈ paths, ∃ n, seen path = some n ∧ (f.disk path).length ≤ n) :
    pending (f.opened seen) offsets.start paths = f.queue paths offsets := by
  refine List.flatMap_congr fun path hpath => ?_
  obtain ⟨n, hn, hlen⟩ := hseen path hpath
  have hopened : f.opened seen path = some (f.disk path) := by
    unfold Feed.opened
    rw [hn, Option.map_some, List.take_of_length_le hlen]
  rw [hopened]

theorem poll_standing (h : Standing maxLines paths queue rounds f) (hnodup : paths.Nodup)
    {glob : List String} {seen : String → Option Nat} (hcalm : (FeedLabel.poll glob seen).Calm paths f)
    {offsets : Offsets} {stopping : Bool} (htask : f.task = some ⟨offsets, stopping, .reading⟩) :
    Standing maxLines paths queue rounds
      { f with task := f.poll maxLines why glob seen ⟨offsets, stopping, .reading⟩ } := by
  obtain ⟨rfl, hseen⟩ := hcalm
  obtain ⟨hstop, hqueue⟩ := h _ htask
  have hglob : glob.Nodup := (List.perm_insertionSort _ _).nodup_iff.mp hnodup
  have hread := poll_dequeues maxLines (f.opened seen) offsets hglob
  rw [opened_queue offsets hseen, opened_queue _ hseen] at hread
  have hnext : f.queue (glob.insertionSort (· ≤ ·))
      (dictOf (offsets ++ (readNewLines maxLines glob (f.opened seen) offsets).2))
        = queue.drop ((rounds + 1) * maxLines) := by
    rw [hread.2, show f.queue _ offsets = _ from hqueue, List.drop_drop, Nat.succ_mul]
  intro t ht
  have ht : t ∈ f.poll maxLines why glob seen ⟨offsets, stopping, .reading⟩ := ht
  unfold Feed.poll at ht
  dsimp only at ht
  split at ht
  · split at ht
    · cases ht
    · obtain rfl := Option.some.inj ht
      exact ⟨hstop, hqueue⟩
  · split at ht
    · cases ht
    · obtain rfl := Option.some.inj ht
      exact ⟨hstop, hnext⟩
    · obtain rfl := Option.some.inj ht
      exact ⟨hstop, hqueue, hnext⟩

/-- The store moves the stream on in its wait, or ends it. -/
theorem nextTask_standing (h : Standing maxLines paths queue rounds f) (l : BatchLabel)
    (hdisk : g.disk = f.disk) (htask : g.task = f.nextTask l) :
    Standing maxLines paths queue rounds g := by
  intro t ht
  rw [htask] at ht
  have hqueue : ∀ offsets, g.queue paths offsets = f.queue paths offsets := by
    intro offsets
    unfold Feed.queue
    rw [hdisk]
  simp only [hqueue]
  unfold Feed.nextTask at ht
  split at ht
  · split at ht
    · next hf =>
      have hwas := h _ hf
      obtain rfl := Option.some.inj ht
      exact hwas
    · exact h t ht
  · split at ht
    · split at ht
      · cases ht
      · exact h t ht
    · exact h t ht
  · exact h t ht

theorem calm_standing (h : Standing maxLines paths queue rounds f) (hnodup : paths.Nodup)
    {l : FeedLabel} (hcalm : l.Calm paths f) (hs : feedStep env schema spec maxLines why f l = some g) :
    g.disk = f.disk ∧ Standing maxLines paths queue (rounds + [l].countP FeedLabel.isCheckpoint) g := by
  cases feedStep_moves hs with
  | store hne hb => exact ⟨rfl, nextTask_standing h _ rfl rfl⟩
  | append => exact hcalm.elim
  | start => exact hcalm.elim
  | poll htask => exact ⟨rfl, poll_standing h hnodup hcalm htask⟩
  | take htask hb =>
    have hwas := h _ htask
    refine ⟨rfl, fun t ht => ?_⟩
    obtain rfl := Option.some.inj ht
    exact hwas
  | land htask =>
    refine ⟨rfl, fun t ht => ?_⟩
    obtain rfl := Option.some.inj ht
    exact ⟨(h _ htask).1, (h _ htask).2.2⟩
  | checkpoint htask =>
    refine ⟨rfl, fun t ht => ?_⟩
    replace ht : t ∈ ite _ _ _ := ht
    split at ht
    · cases ht
    · obtain rfl := Option.some.inj ht
      exact h _ htask
  | stop => exact hcalm.elim
  | die => exact ⟨rfl, fun t ht => by cases ht⟩
  | crash => exact hcalm.elim

theorem calm_run_standing (h : Standing maxLines paths queue rounds f) (hnodup : paths.Nodup)
    {labels : List FeedLabel}
    (hcalm : Guarded (feedStep env schema spec maxLines why) (fun f l => l.Calm paths f) f labels)
    (hrun : run (feedStep env schema spec maxLines why) f labels = some g) :
    g.disk = f.disk ∧ Standing maxLines paths queue (rounds + labels.countP FeedLabel.isCheckpoint) g := by
  induction labels generalizing f rounds with
  | nil =>
    obtain rfl := Option.some.inj hrun
    exact ⟨rfl, h⟩
  | cons l labels ih =>
    obtain ⟨u, hu, hrun⟩ := run_cons_iff.mp hrun
    obtain ⟨hdisk, hstep⟩ := calm_standing h hnodup hcalm.1 hu
    obtain ⟨hdisk', hend⟩ := ih hstep (hcalm.2 u hu) hrun
    refine ⟨hdisk'.trans hdisk, ?_⟩
    rw [Nat.add_assoc, ← List.countP_append] at hend
    exact hend

/-- Whatever a stream has been through: from when it reads on over files that stay as they are, it needs
no more rounds than its batch size divides what it has not read, and every line of its files that is
whole, not blank, and before any that ends in a bare carriage return has its row in the table. -/
theorem stream_drains (hspec : spec ∈ schema.tables) (hvar : spec.primary.sqlType = .varchar)
    {disk : String → Bytes} {before labels : List FeedLabel}
    (hfed : Guarded (feedStep env schema spec maxLines why) (FeedLabel.Fed spec) (Feed.init disk) before)
    (hbefore : run (feedStep env schema spec maxLines why) (Feed.init disk) before = some f)
    {offsets : Offsets} (htask : f.task = some ⟨offsets, false, .reading⟩) (hnodup : paths.Nodup)
    (hcalm : Guarded (feedStep env schema spec maxLines why)
      (fun f l => l.Fed spec f ∧ l.Calm paths f) f labels)
    (hrun : run (feedStep env schema spec maxLines why) f labels = some g)
    (hrounds : (f.queue paths offsets).length ≤ labels.countP FeedLabel.isCheckpoint * maxLines)
    (hlive : g.task.isSome = true) :
    ∀ path ∈ paths, ∀ line ∈ wholeLines (splitLines (g.disk path)),
      Delivered spec g.batch.sys.db line := by
  have hsound := feed_run_sound hspec hvar (feed_init_sound disk) hfed hbefore
  have hsound' := feed_run_sound hspec hvar hsound (Guarded.imp (fun _ _ h => h.1) hcalm) hrun
  have hstart : Standing maxLines paths (f.queue paths offsets) 0 f := by
    intro t ht
    obtain rfl := Option.some.inj (htask.symm.trans ht)
    exact ⟨rfl, by simp⟩
  obtain ⟨-, hend⟩ := calm_run_standing hstart hnodup (Guarded.imp (fun _ _ h => h.2) hcalm) hrun
  obtain ⟨t, ht⟩ := Option.isSome_iff_exists.mp hlive
  have hempty : g.queue paths t.offsets = [] := by
    have hdrop : ∀ more, (f.queue paths offsets).drop
        ((0 + labels.countP FeedLabel.isCheckpoint + more) * maxLines) = [] := by
      intro more
      apply List.drop_eq_nil_of_le
      rw [Nat.zero_add, Nat.add_mul]
      omega
    obtain ⟨-, hdoing⟩ := hend t ht
    cases hdo : t.doing with
    | reading =>
      rw [hdo] at hdoing
      exact hdoing.trans (hdrop 0)
    | landing rows next last wait =>
      rw [hdo] at hdoing
      exact hdoing.1.trans (hdrop 0)
    | landed last =>
      rw [hdo] at hdoing
      exact hdoing.trans (hdrop 1)
  intro path hpath line hline
  obtain ⟨ls, hwhole, hdelivered⟩ := spans_whole (hsound'.offsets t ht path)
  have hahead : ahead (g.disk path) (t.offsets.start path) = [] :=
    (List.flatMap_eq_nil_iff.mp hempty) path hpath
  rw [hwhole, show ahead (g.disk path) ((lookup path t.offsets).getD 0) = [] from hahead,
    List.append_nil] at hline
  exact hdelivered line hline

end Stream

/-! ## A stream of notes -/

/-- A label of a stream that reads no more and is let alone, and no rebuild of which writes. -/
def FeedLabel.steady : FeedLabel → Bool
  | .store (.sys (.replay _)) => false
  | .store _ | .take | .land | .checkpoint | .die => true
  | _ => false

theorem steady_calm {env : Env} {schema : Schema} {spec : TableSpec} {maxLines : Nat}
    {why : Bytes → String} {f : Feed} {paths : List String} {labels : List FeedLabel}
    (hl : ∀ l ∈ labels, l.steady = true) (h : StringKeys spec f.disk) :
    Guarded (feedStep env schema spec maxLines why) (fun f l => l.Fed spec f ∧ l.Calm paths f) f labels := by
  have hquiet : ∀ l ∈ labels, l.quiet = true := by
    intro l hmem
    have hsteady := hl l hmem
    revert hsteady
    cases l with
    | store l =>
      cases l with
      | sys l => cases l <;> exact id
      | log | logFault => exact id
    | append | start | poll | stop | crash => exact fun hno => by cases hno
    | take | land | checkpoint | die => exact id
  refine (quiet_fed hquiet h).and_forall fun l hmem t => ?_
  have hsteady := hl l hmem
  cases l with
  | store | take | land | checkpoint | die => trivial
  | append | start | poll | stop | crash => cases hsteady

/-- A line is read, lands and is checkpointed. -/
def noteRound : List FeedLabel := (.poll ["a"] fun _ => some 100) :: noteFeed.dropLast

theorem stream_drains_note : ∃ f g, run noteStep (Feed.init noteDisk) [.start true] = some f
    ∧ run noteStep f noteRound = some g ∧ f.queue ["a"] [] = [noteFile]
    ∧ Delivered notes g.batch.sys.db noteFile := by
  have hrest : (run noteStep { Feed.init noteDisk with
      task := some ⟨[], false, .landing [noteMembers.record] [("a", 13)] false .queued⟩ }
        noteFeed.dropLast).map (fun g => (g.task.isSome, g.disk "a")) = some (true, noteFile) := by
    decide +kernel
  obtain ⟨g, hg, heq⟩ := Option.map_eq_some_iff.mp hrest
  obtain ⟨hlive, hdisk⟩ := Prod.mk.inj heq
  have hstart : run noteStep (Feed.init noteDisk) [.start true]
      = some { Feed.init noteDisk with task := some ⟨[], false, .reading⟩ } := rfl
  have hpolled := noteFile_polled
  rw [show ([.start true, .poll ["a"] fun _ => some 100] : List FeedLabel)
    = [.start true] ++ [.poll ["a"] fun _ => some 100] from rfl, run_append, hstart] at hpolled
  have hround : run noteStep { Feed.init noteDisk with task := some ⟨[], false, .reading⟩ } noteRound
      = some g := by
    rw [noteRound, ← List.singleton_append, run_append]
    show ((run noteStep { Feed.init noteDisk with task := some ⟨[], false, .reading⟩ }
      [.poll ["a"] fun _ => some 100]).bind _) = _
    rw [show run noteStep _ _ = _ from hpolled]
    exact hg
  have hqueue : Feed.queue { Feed.init noteDisk with task := some ⟨[], false, .reading⟩ } ["a"] []
      = [noteFile] := by decide +kernel
  have hcalm : Guarded noteStep (fun f l => l.Fed notes f ∧ l.Calm ["a"] f)
      { Feed.init noteDisk with task := some ⟨[], false, .reading⟩ } noteRound := by
    refine ⟨⟨⟨noteDisk_keyed, nofun⟩, by decide +kernel, fun path hpath => ⟨100, rfl, ?_⟩⟩,
      fun u hu => steady_calm (by decide) ?_⟩
    · obtain rfl := List.mem_singleton.mp hpath
      decide +kernel
    · rw [feedStep_disk rfl hu]
      exact noteDisk_keyed
  refine ⟨_, g, hstart, hround, hqueue, ?_⟩
  have hlines := stream_drains (by simp [notesSchema]) rfl
    (quiet_fed (by decide) noteDisk_keyed) hstart rfl (List.nodup_singleton "a") hcalm hround
    (by rw [hqueue]; decide) hlive "a" List.mem_cons_self
  refine hlines noteFile ?_
  rw [hdisk]
  decide +kernel

end Seekbase
