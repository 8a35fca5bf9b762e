/-
# Seekbase.SideFile — the offsets of a stream, written beside and renamed.

`_checkpoint` writes the side file in three operations: a temporary file is opened, which empties it, the
text goes into it in pieces of any sizes, and the file takes the place of the old one.  `feedStep` has one
label for all three.  That is what they amount to, wherever a crash, the end of the task or another step
of the store comes in between: what a restart reads is the offsets of the last checkpoint that got to its
rename, never a part of a text.

* `sideFile`         — the stream as a system with a register;
* `feed_readable`    — no step leaves anything in the side file that a restart cannot read;
* `side_file_atomic` — a stream on the disk, all the way down to what its saved offsets promise;
* `side_file_lifts`  — and nothing `feedStep` does is lost.
-/
import Seekbase.Lib.AtomicFile
import Seekbase.Drain

namespace Seekbase

open JsonText Lines Transition AtomicFile

section SideFile

variable (env : Env) (schema : Schema) (spec : TableSpec) (maxLines : Nat) (why : Bytes → String)

/-- The text `_checkpoint` writes, when the stream is about to. -/
def Feed.checkpointText (f : Feed) : Option (List Char) :=
  match f.task with
  | some ⟨offsets, _, .landed _⟩ => some (offsetsText offsets)
  | _ => none

/-- The side file has this text, and `_run` goes on. -/
def Feed.checkpointed (f : Feed) (text : List Char) : Option Feed :=
  match f.task with
  | some ⟨offsets, stopping, .landed last⟩ => some { f with
      saved := some text
      task := if last then none else some ⟨offsets, stopping, .reading⟩ }
  | _ => none

theorem isCheckpoint_iff (l : FeedLabel) : l.isCheckpoint = true ↔ l = .checkpoint := by
  cases l <;> simp [FeedLabel.isCheckpoint]

theorem checkpoint_step (f : Feed) : feedStep env schema spec maxLines why f .checkpoint
    = f.checkpointText.bind f.checkpointed := by
  unfold Feed.checkpointText
  simp only [feedStep]
  cases htask : f.task with
  | none => rfl
  | some t =>
    obtain ⟨offsets, stopping, doing⟩ := t
    cases doing with
    | reading | landing => rfl
    | landed last =>
      show _ = f.checkpointed (offsetsText offsets)
      rw [Feed.checkpointed, htask]

def sideFile : Register Feed FeedLabel Char where
  step := feedStep env schema spec maxLines why
  commit := .checkpoint
  isCommit := FeedLabel.isCheckpoint
  content := Feed.checkpointText
  arrive := Feed.checkpointed
  commit_iff := isCheckpoint_iff
  commit_step := checkpoint_step env schema spec maxLines why

/-- No stream has run yet. -/
def feedDisk (disk : String → Bytes) : Disk Feed Char := ⟨Feed.init disk, none, []⟩

end SideFile

section Result

variable {env : Env} {schema : Schema} {spec : TableSpec} {maxLines : Nat} {why : Bytes → String}
  {f g : Feed} {disk : String → Bytes}

/-- The side file is there whole or not at all. -/
def Feed.Readable (f : Feed) : Prop := ∀ text ∈ f.saved, ∃ offsets, text = offsetsText offsets

theorem feed_step_readable (h : f.Readable) {l : FeedLabel}
    (hs : feedStep env schema spec maxLines why f l = some g) : g.Readable := by
  cases feedStep_moves hs with
  | @checkpoint offsets stopping last htask =>
    intro text htext
    exact ⟨offsets, (Option.some.inj htext).symm⟩
  | _ => exact h

theorem feed_readable {labels : List FeedLabel}
    (hrun : run (feedStep env schema spec maxLines why) (Feed.init disk) labels = some f) :
    f.Readable := by
  refine run_invariant (fun _ _ _ hx hs => feed_step_readable hx hs) ?_ hrun
  intro text htext
  cases htext

/-- Checkpoints are atomic.  However a stream's run is cut into file operations and wherever it fails
between two of them, it is a run in which each checkpoint happens whole or not at all; what the side file
holds can be read; and every line up to the offsets in it is in the table. -/
theorem side_file_atomic (hspec : spec ∈ schema.tables) (hvar : spec.primary.sqlType = .varchar)
    {labels : List (DiskLabel FeedLabel Char)} {d : Disk Feed Char}
    (hguard : Guarded (feedStep env schema spec maxLines why) (FeedLabel.Fed spec) (Feed.init disk)
      (labels.filterMap (erase (sideFile env schema spec maxLines why))))
    (hrun : run (diskStep (sideFile env schema spec maxLines why)) (feedDisk disk) labels = some d) :
    run (feedStep env schema spec maxLines why) (Feed.init disk)
        (labels.filterMap (erase (sideFile env schema spec maxLines why))) = some d.system
      ∧ ∀ text ∈ d.system.saved, ∃ offsets, offsetsOf text = some offsets ∧ ∀ path,
        ∀ line ∈ completeLines ((d.system.disk path).take ((lookup path offsets).getD 0)),
          trim line ≠ [] → Delivered spec d.system.batch.sys.db line := by
  have hwriting : (feedDisk disk).Writing (sideFile env schema spec maxLines why) := .idle rfl
  obtain ⟨-, hfeed⟩ := disk_refines hwriting hrun
  refine ⟨hfeed, fun text htext => ?_⟩
  have hsound := feed_run_sound hspec hvar (feed_init_sound disk) hguard hfeed
  obtain ⟨offsets, rfl⟩ := feed_readable hfeed text htext
  have hread := offsetsOf_text offsets
  refine ⟨offsets, hread, fun path line hline hne => ?_⟩
  exact (hsound.saved _ htext offsets hread path).lines hline hne

/-- Whatever the pieces are in which each text is written. -/
theorem side_file_lifts {labels : List FeedLabel} (cut : List Char → List (List Char))
    (hcut : ∀ text, (cut text).flatten = text)
    (hrun : run (feedStep env schema spec maxLines why) (Feed.init disk) labels = some f) :
    ∃ ls tmp, ls.filterMap (erase (sideFile env schema spec maxLines why)) = labels
      ∧ run (diskStep (sideFile env schema spec maxLines why)) (feedDisk disk) ls = some ⟨f, tmp, []⟩ :=
  disk_lifts cut hcut hrun

end Result

/-- The file is read and its line lands. -/
def noteLands : List FeedLabel :=
  .take :: ([.decide, .plan ⟨"20260102", "t1", t1_ne⟩, .write, .write, .finish] : List Label).map
      (fun l => .store (.sys l))
    ++ [.store .log, .store (.sys .settle), .land]

def noteReads : List FeedLabel := [.start true, .poll ["a"] fun _ => some 100] ++ noteLands

/-- Then the text goes to the disk in two pieces, and the process dies after the rename. -/
def noteSaves : List (DiskLabel FeedLabel Char) :=
  noteReads.map .other
    ++ (commitIn [(offsetsText [("a", 13)]).take 4, (offsetsText [("a", 13)]).drop 4] ++ [.other .crash])

abbrev noteSide := sideFile plainEnv notesSchema notes 1000 fun _ => "bad"

theorem side_file_atomic_note : ∃ d, run (diskStep noteSide) (feedDisk noteDisk) noteSaves = some d
    ∧ d.system.saved = some (offsetsText [("a", 13)])
    ∧ Delivered notes d.system.batch.sys.db noteFile := by
  have hland : (run noteStep { Feed.init noteDisk with
      task := some ⟨[], false, .landing [noteMembers.record] [("a", 13)] false .queued⟩ }
        noteLands).map (fun f => (f.checkpointText,
          (run noteStep f [.checkpoint, .crash]).map fun e => (e.saved, e.disk "a")))
      = some (some (offsetsText [("a", 13)]), some (some (offsetsText [("a", 13)]), noteFile)) := by
    decide +kernel
  obtain ⟨f, hf, heq⟩ := Option.map_eq_some_iff.mp hland
  obtain ⟨htext, hrest⟩ := Prod.mk.inj heq
  obtain ⟨e, he, heq⟩ := Option.map_eq_some_iff.mp hrest
  obtain ⟨hsaved, hdisk⟩ := Prod.mk.inj heq
  obtain ⟨g, hg, he⟩ := run_cons_iff.mp he
  obtain ⟨e', hcrash, he⟩ := run_cons_iff.mp he
  obtain rfl := Option.some.inj he
  have hreads : run noteStep (Feed.init noteDisk) noteReads = some f := by
    rw [noteReads, run_append, noteFile_polled]
    exact hf
  have hcuts : (([(offsetsText [("a", 13)]).take 4, (offsetsText [("a", 13)]).drop 4]).flatten)
      = offsetsText [("a", 13)] := by
    rw [List.flatten_cons, List.flatten_cons, List.flatten_nil, List.append_nil, List.take_append_drop]
  have hbefore : run (diskStep noteSide) ⟨Feed.init noteDisk, none, []⟩ (noteReads.map .other)
      = some ⟨f, none, []⟩ := others_run (by decide) hreads
  have hrun : run (diskStep noteSide) (feedDisk noteDisk) noteSaves = some ⟨e', none, []⟩ := by
    rw [noteSaves, run_append, feedDisk, hbefore]
    show (run (diskStep noteSide) ⟨f, none, []⟩ _) = _
    rw [run_append, commit_runs (htext.trans (congrArg some hcuts.symm)) hg]
    have hlast : diskStep noteSide ⟨g, none, []⟩ (.other .crash) = some ⟨e', none, []⟩ :=
      other_runs rfl hcrash
    exact run_cons_iff.mpr ⟨_, hlast, rfl⟩
  have hkinds : noteSaves.filterMap (erase noteSide) = noteReads ++ [.checkpoint, .crash] := by
    rw [noteSaves, List.filterMap_append, List.filterMap_append, erase_commitIn]
    rfl
  have hquiet : ∀ l ∈ noteReads ++ [.checkpoint, .crash], l.quiet = true := by decide
  have hfed : Guarded noteStep (FeedLabel.Fed notes) (Feed.init noteDisk)
      (noteSaves.filterMap (erase noteSide)) := hkinds ▸ quiet_fed hquiet noteDisk_keyed
  have hatomic := (side_file_atomic (by simp [notesSchema]) rfl hfed hrun).2
  obtain ⟨offsets, hoffsets, hpassed⟩ := hatomic _ hsaved
  rw [offsetsOf_text] at hoffsets
  obtain rfl := Option.some.inj hoffsets
  refine ⟨_, hrun, hsaved, hpassed "a" noteFile ?_ ?_⟩
  · show noteFile ∈ completeLines ((e'.disk "a").take 13)
    rw [hdisk]
    decide +kernel
  · decide +kernel

end Seekbase
