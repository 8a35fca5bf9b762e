/-
# Seekbase.Lib.AtomicFile — a register in a file that is replaced by a rename.

A system has a register, and one label that commits a content to it in a single step.  What implements
it has a file in the register's place: it writes the content beside it, to a temporary file, in chunks
of any sizes, and renames that over the file.  A failure between any two of these operations leaves a
torn temporary file and the old register; whatever else the system does may come in between as well.

* `Register`    — a system with a register, and its commit in two halves: the content, and its arrival;
* `Disk`, `diskStep` — the system with files, one file operation at a time;
* `Disk.Writing` — what is being written is what there is to commit;
* `disk_refines` — erasing the file operations, every run of it is a run of the system;
* `disk_lifts`   — and every run of the system is one of these, however its commits are cut in chunks.
-/
import Seekbase.Lib.Run

namespace AtomicFile

open Transition

/-! ## Systems with a register -/

/-- A system on states `σ` and labels `κ` that writes a register of `β`s with the label `commit`.
`content` is what it has to commit, if it is about to, and `arrive` the step of a commit once the
content is in the register. -/
structure Register (σ κ β : Type) where
  step : σ → κ → Option σ
  commit : κ
  isCommit : κ → Bool
  content : σ → Option (List β)
  arrive : σ → List β → Option σ
  commit_iff : ∀ k, isCommit k = true ↔ k = commit
  commit_step : ∀ s, step s commit = (content s).bind (arrive s)

/-! ## Files -/

inductive DiskOp (β : Type) where
  /-- The temporary file, made empty. -/
  | create
  | write (bytes : List β)
  /-- The temporary file takes the place of the other. -/
  | rename

/-- The operations of a commit that writes in these chunks. -/
def save {β : Type} (chunks : List (List β)) : List (DiskOp β) := .create :: chunks.map .write ++ [.rename]

/-- The system, whose register is a file now, with the temporary file beside it and the operations that
a commit has left to do. -/
structure Disk (σ β : Type) where
  system : σ
  tmp : Option (List β)
  todo : List (DiskOp β)

inductive DiskLabel (κ β : Type) where
  | other (k : κ)
  | start (chunks : List (List β))
  | file
  | rename

section Steps

variable {σ κ β : Type} [DecidableEq β] (R : Register σ κ β)

/-- A step of the system that takes away what there was to commit takes the rest of the commit with it. -/
def Disk.after (d : Disk σ β) (s : σ) : Disk σ β :=
  ⟨s, d.tmp, if R.content s = R.content d.system then d.todo else []⟩

def diskStep (d : Disk σ β) : DiskLabel κ β → Option (Disk σ β)
  | .other k => if R.isCommit k then none else (R.step d.system k).map (d.after R)
  | .start chunks =>
    if d.todo.isEmpty ∧ R.content d.system = some chunks.flatten then
      some { d with todo := save chunks }
    else none
  | .file =>
    match d.todo with
    | .create :: todo => some ⟨d.system, some [], todo⟩
    | .write bytes :: todo => some ⟨d.system, d.tmp.map (· ++ bytes), todo⟩
    | _ => none
  -- the commit goes on at once, with nothing in between
  | .rename =>
    match d.todo, d.tmp with
    | .rename :: todo, some bytes => (R.arrive d.system bytes).map fun s => ⟨s, none, todo⟩
    | _, _ => none

/-- The step of the system that a step is, if it is one. -/
def erase : DiskLabel κ β → Option κ
  | .other k => some k
  | .start _ | .file => none
  | .rename => some R.commit

/-- If a commit has begun, what is in the temporary file and what is still to be written to it are
together what there is to commit. -/
inductive Disk.Writing (d : Disk σ β) : Prop where
  | idle (htodo : d.todo = [])
  | begun (chunks : List (List β)) (hcontent : R.content d.system = some chunks.flatten)
    (htodo : d.todo = save chunks)
  | torn (bytes : List β) (chunks : List (List β)) (htmp : d.tmp = some bytes)
    (hcontent : R.content d.system = some (bytes ++ chunks.flatten))
    (htodo : d.todo = chunks.map .write ++ [.rename])

variable {R} {d e : Disk σ β}

theorem after_writing (h : d.Writing R) (s : σ) : (d.after R s).Writing R := by
  by_cases hsame : R.content s = R.content d.system
  · have htodo : (d.after R s).todo = d.todo := if_pos hsame
    cases h with
    | idle h => exact .idle (htodo.trans h)
    | begun chunks hcontent h => exact .begun chunks (hsame.trans hcontent) (htodo.trans h)
    | torn bytes chunks htmp hcontent h =>
      exact .torn bytes chunks htmp (hsame.trans hcontent) (htodo.trans h)
  · exact .idle (if_neg hsame)

theorem file_writing (h : d.Writing R) (hstep : diskStep R d .file = some e) :
    e.Writing R ∧ e.system = d.system := by
  rw [diskStep] at hstep
  cases h with
  | idle h =>
    rw [h] at hstep
    cases hstep
  | begun chunks hcontent h =>
    rw [h] at hstep
    obtain rfl := Option.some.inj hstep
    exact ⟨.torn [] chunks rfl hcontent rfl, rfl⟩
  | torn bytes chunks htmp hcontent h =>
    rw [h] at hstep
    cases chunks with
    | nil => cases hstep
    | cons chunk chunks =>
      obtain rfl := Option.some.inj hstep
      refine ⟨.torn (bytes ++ chunk) chunks ?_ ?_ rfl, rfl⟩
      · show d.tmp.map (· ++ chunk) = _
        rw [htmp]
        rfl
      · show R.content d.system = _
        rw [hcontent, List.flatten_cons, List.append_assoc]

/-- The file that takes the place of the register holds what there was to commit. -/
theorem rename_writing (h : d.Writing R) (hstep : diskStep R d .rename = some e) :
    e.Writing R ∧ R.step d.system R.commit = some e.system := by
  rw [diskStep] at hstep
  cases h with
  | idle h =>
    rw [h] at hstep
    cases hstep
  | begun chunks hcontent h =>
    rw [h] at hstep
    cases hstep
  | torn bytes chunks htmp hcontent h =>
    rw [h, htmp] at hstep
    cases chunks with
    | cons chunk chunks => cases hstep
    | nil =>
      obtain ⟨s, hs, rfl⟩ := Option.map_eq_some_iff.mp hstep
      refine ⟨.idle rfl, ?_⟩
      rw [R.commit_step, hcontent, List.flatten_nil, List.append_nil]
      exact hs

/-- REFINEMENT.  In every run a commit on the disk is a commit of the system, whole and at once. -/
theorem disk_refines {ls : List (DiskLabel κ β)} (h : d.Writing R)
    (hrun : run (diskStep R) d ls = some e) :
    e.Writing R ∧ run R.step d.system (ls.filterMap (erase R)) = some e.system := by
  induction ls generalizing d with
  | nil =>
    obtain rfl := Option.some.inj hrun
    exact ⟨h, rfl⟩
  | cons l ls ih =>
    obtain ⟨c, hc, hafter⟩ := run_cons_iff.mp hrun
    cases l with
    | other k =>
      rw [diskStep] at hc
      split at hc
      · cases hc
      · obtain ⟨s, hs, rfl⟩ := Option.map_eq_some_iff.mp hc
        obtain ⟨hend, hrest⟩ := ih (after_writing h s) hafter
        exact ⟨hend, run_cons_iff.mpr ⟨s, hs, hrest⟩⟩
    | start chunks =>
      rw [diskStep] at hc
      split at hc
      · next hbegin =>
        obtain rfl := Option.some.inj hc
        have hwriting : Disk.Writing R { d with todo := save chunks } := .begun chunks hbegin.2 rfl
        obtain ⟨hend, hrest⟩ := ih hwriting hafter
        exact ⟨hend, hrest⟩
      · cases hc
    | file =>
      obtain ⟨hwriting, hsystem⟩ := file_writing h hc
      obtain ⟨hend, hrest⟩ := ih hwriting hafter
      exact ⟨hend, hsystem ▸ hrest⟩
    | rename =>
      obtain ⟨hwriting, hcommit⟩ := rename_writing h hc
      obtain ⟨hend, hrest⟩ := ih hwriting hafter
      exact ⟨hend, run_cons_iff.mpr ⟨_, hcommit, hrest⟩⟩

/-! ## Every run of the system -/

/-- The labels of a commit in these chunks. -/
def commitIn (chunks : List (List β)) : List (DiskLabel κ β) :=
  .start chunks :: .file :: chunks.map (fun _ => .file) ++ [.rename]

variable (R) in
theorem writes_run (s : σ) (bytes : List β) (chunks : List (List β)) :
    run (diskStep R) ⟨s, some bytes, chunks.map .write ++ [.rename]⟩ (chunks.map fun _ => .file)
      = some ⟨s, some (bytes ++ chunks.flatten), [.rename]⟩ := by
  induction chunks generalizing bytes with
  | nil =>
    show some _ = some _
    rw [List.flatten_nil, List.append_nil]
    rfl
  | cons chunk chunks ih =>
    refine run_cons_iff.mpr ⟨⟨s, some (bytes ++ chunk), chunks.map .write ++ [.rename]⟩, rfl, ?_⟩
    rw [ih, List.flatten_cons, List.append_assoc]

/-- A commit, with nothing in between. -/
theorem commit_runs {s t : σ} {tmp : Option (List β)} {chunks : List (List β)}
    (hcontent : R.content s = some chunks.flatten) (ht : R.step s R.commit = some t) :
    run (diskStep R) ⟨s, tmp, []⟩ (commitIn chunks) = some ⟨t, none, []⟩ := by
  refine run_cons_iff.mpr ⟨⟨s, tmp, save chunks⟩, if_pos ⟨rfl, hcontent⟩, ?_⟩
  refine run_cons_iff.mpr ⟨⟨s, some [], chunks.map .write ++ [.rename]⟩, rfl, ?_⟩
  refine run_snoc_iff.mpr ⟨_, writes_run R s [] chunks, ?_⟩
  rw [R.commit_step, hcontent] at ht
  show (R.arrive s chunks.flatten).map _ = _
  rw [show R.arrive s chunks.flatten = some t from ht]
  rfl

theorem other_runs {s t : σ} {tmp : Option (List β)} {k : κ} (hk : R.isCommit k = false)
    (ht : R.step s k = some t) : diskStep R ⟨s, tmp, []⟩ (.other k) = some ⟨t, tmp, []⟩ := by
  rw [diskStep, hk]
  show (R.step s k).map _ = _
  rw [ht, Option.map_some, Disk.after, ite_self]

/-- Labels none of which commits do on the disk what they do in the system. -/
theorem others_run {s t : σ} {tmp : Option (List β)} {ks : List κ}
    (hks : ∀ k ∈ ks, R.isCommit k = false) (hrun : run R.step s ks = some t) :
    run (diskStep R) ⟨s, tmp, []⟩ (ks.map .other) = some ⟨t, tmp, []⟩ := by
  induction ks generalizing s with
  | nil =>
    obtain rfl := Option.some.inj hrun
    rfl
  | cons k ks ih =>
    obtain ⟨u, hu, hrun⟩ := run_cons_iff.mp hrun
    obtain ⟨hk, hks⟩ := List.forall_mem_cons.mp hks
    exact run_cons_iff.mpr ⟨_, other_runs hk hu, ih hks hrun⟩

omit [DecidableEq β] in
theorem erase_commitIn (chunks : List (List β)) :
    (commitIn chunks).filterMap (erase R) = [R.commit] := by
  have hfiles : ((chunks.map fun _ => DiskLabel.file).filterMap (erase R) : List κ) = [] :=
    List.filterMap_eq_nil_iff.mpr fun l hl => by
      obtain ⟨-, -, rfl⟩ := List.mem_map.mp hl
      rfl
  rw [commitIn, List.filterMap_append, List.filterMap_cons, List.filterMap_cons]
  show List.filterMap _ _ ++ [R.commit] = _
  rw [hfiles]
  rfl

/-- Every run of the system is one on the disk, with every content cut as one likes. -/
theorem disk_lifts {s t : σ} {tmp : Option (List β)} {ks : List κ} (cut : List β → List (List β))
    (hcut : ∀ x, (cut x).flatten = x) (hrun : run R.step s ks = some t) :
    ∃ ls tmp', ls.filterMap (erase R) = ks
      ∧ run (diskStep R) ⟨s, tmp, []⟩ ls = some ⟨t, tmp', []⟩ := by
  induction ks generalizing s tmp with
  | nil =>
    obtain rfl := Option.some.inj hrun
    exact ⟨[], tmp, rfl, rfl⟩
  | cons k ks ih =>
    obtain ⟨u, hu, hafter⟩ := run_cons_iff.mp hrun
    by_cases hk : R.isCommit k = true
    · obtain rfl := (R.commit_iff k).mp hk
      have hsome := hu
      rw [R.commit_step] at hsome
      obtain ⟨x, hx, -⟩ := Option.bind_eq_some_iff.mp hsome
      obtain ⟨ls, tmp', hls, hrest⟩ := @ih u none hafter
      have hcontent : R.content s = some (cut x).flatten := hx.trans (congrArg some (hcut x).symm)
      refine ⟨commitIn (cut x) ++ ls, tmp', ?_, ?_⟩
      · rw [List.filterMap_append, erase_commitIn, hls]
        rfl
      · rw [run_append, commit_runs hcontent hu]
        exact hrest
    · obtain ⟨ls, tmp', hls, hrest⟩ := @ih u tmp hafter
      refine ⟨.other k :: ls, tmp', ?_, ?_⟩
      · rw [List.filterMap_cons]
        exact congrArg (k :: ·) hls
      · exact run_cons_iff.mpr ⟨_, other_runs (by simpa using hk) hu, hrest⟩

end Steps

end AtomicFile
