/-
# Seekbase.StreamShape — which texts start a stream, and which of them have a stream's shape.

A stream is an unbounded source, middles that end when their input does, and the one sink.  Its compiler
looks at three things: the head is unbounded, the tail is called `ingest`, every middle has a bash cell.
What it does not look at is whether the head is a SOURCE, and whether what follows is bounded and no
source: a second `watch` has a bash cell, and is accepted as a middle.

* `Streamlike`           — the shape of the parsed segments;
* `OpsInPlace`              — the operators a text names stand where the shape has them;
* `stream_shape_iff`     — what is accepted has the shape iff they do, or the text is refused anyway;
* `watch_follows_watch`  — a text of built-in operators that is accepted and has not.
-/
import Seekbase.Spawn

namespace Seekbase

section StreamShape

variable {ι α : Type} {reg : Registry ι α} {p : Policy} {h h' : Held ι}
  {sinkTable : α → Except PipeExc Unit} {calls : List (Call ι α)} {pipeline : List Char}
  {segments : List (List Char)} {argvs : List (List String)}

/-! ## The shape -/

variable (sinkTable) in
/-- The first operator is the one unbounded operator and the one source, the last is the one `ingest`,
into a known table, and the others have a bash cell. -/
def Streamlike (calls : List (Call ι α)) : Prop :=
  ∃ source middles sink, calls = source :: (middles ++ [sink])
    ∧ source.op.bounded = false ∧ source.op.isSource = .ok true
    ∧ sink.op.name = "ingest" ∧ sinkTable sink.args = .ok ()
    ∧ (∀ c ∈ middles ++ [sink], c.op.bounded = true ∧ c.op.isSource = .ok false)
    ∧ ∀ c ∈ middles, c.op.optimizeBash.isSome = true ∧ c.op.name ≠ "ingest"

variable (reg) in
/-- Of the operators that the segments name: the first is a source; those behind it are bounded and no
source; and `ingest` comes last, if it comes behind it at all. -/
def OpsInPlace (segments : List (List Char)) : Prop :=
  ∀ pre segment post key op rest, segments = pre ++ segment :: post →
    classify reg segment = some (key, op, rest) →
    (pre = [] → op.isSource = .ok true)
      ∧ (pre ≠ [] → op.bounded = true ∧ op.isSource = .ok false ∧ (post ≠ [] → op.name ≠ "ingest"))

variable (reg p) in
/-- The text is accepted: every segment is an operator that is allowed, with well formed arguments, the
head is unbounded, the tail is the sink of a known table, every middle gives an argument vector. -/
def Accepted (sinkTable : α → Except PipeExc Unit) (h : Held ι) (pipeline : List Char) : Prop :=
  ∃ segments calls h' argvs, splitPipeline pipeline = some segments
    ∧ Threaded (StreamTaken reg p) h segments calls h' ∧ StreamFits sinkTable h' calls argvs

theorem accepted_iff : (∃ plan, (streamCompile reg p sinkTable h pipeline).result = .ok plan)
    ↔ Accepted reg p sinkTable h pipeline := by
  constructor
  · rintro ⟨plan, hok⟩
    obtain ⟨segments, calls, h', hsplit, ht, hplan⟩ := streamCompile_iff.mp hok
    exact ⟨segments, calls, h', plan.middles, hsplit, ht, (streamOf_iff.mp hplan).1⟩
  · rintro ⟨segments, calls, h', argvs, hsplit, ht, hfits⟩
    obtain ⟨source, middles, sink, rfl, hrest⟩ := hfits
    refine ⟨⟨source.args, argvs, sink.args⟩, streamCompile_iff.mpr ⟨segments, _, h', hsplit, ht, ?_⟩⟩
    refine streamOf_iff.mpr ⟨⟨source, middles, sink, rfl, hrest⟩, source, sink, rfl, ?_, rfl, rfl⟩
    rw [← List.cons_append, List.getLast?_concat]

/-! ## Positions -/

/-- A call stands where its segment does. -/
theorem call_segment {a b : List (Call ι α)} {c : Call ι α}
    (ht : Threaded (StreamTaken reg p) h segments (a ++ c :: b) h') :
    ∃ pre segment post rest, segments = pre ++ segment :: post ∧ pre.length = a.length
      ∧ post.length = b.length ∧ classify reg segment = some (c.key, c.op, rest) := by
  obtain ⟨pre, segment, post, h₁, heq, hpre, hpost, rest, hc, -⟩ :=
    ht.unsplit fun _ _ _ _ => StreamTaken.held
  exact ⟨pre, segment, post, rest, heq, hpre, hpost, hc⟩

theorem segment_call {pre post : List (List Char)} {segment : List Char} {key : String}
    {op : Operator ι α} {rest : List Char} (ht : Threaded (StreamTaken reg p) h segments calls h')
    (heq : segments = pre ++ segment :: post) (hc : classify reg segment = some (key, op, rest)) :
    ∃ a c b, calls = a ++ c :: b ∧ a.length = pre.length ∧ b.length = post.length ∧ c.op = op := by
  obtain ⟨a, c, b, h₁, hcalls, ha, hb, rest', hs, -⟩ :=
    ht.split (fun _ _ _ _ => StreamTaken.held) heq
  obtain ⟨-, rfl, -⟩ : key = c.key ∧ op = c.op ∧ rest = rest' := by simpa [hc] using hs
  exact ⟨a, c, b, hcalls, ha, hb, rfl⟩

/-- In a stream's shape the operators stand in place. -/
theorem opsInPlace_of_streamlike (ht : Threaded (StreamTaken reg p) h segments calls h')
    (hs : Streamlike sinkTable calls) : OpsInPlace reg segments := by
  obtain ⟨source, middles, sink, rfl, -, hsource, -, -, hrest, hmid⟩ := hs
  intro pre segment post key op rest heq hc
  obtain ⟨a, c, b, hcalls, ha, hb, rfl⟩ := segment_call ht heq hc
  refine ⟨fun hpre => ?_, fun hpre => ?_⟩
  · have hnil : a = [] := List.length_eq_zero_iff.mp (by rw [ha, hpre]; rfl)
    subst hnil
    exact (List.cons.inj hcalls).1 ▸ hsource
  · -- behind the head
    obtain ⟨x, a', rfl⟩ := List.exists_cons_of_ne_nil fun hnil : a = [] =>
      hpre (List.length_eq_zero_iff.mp (by rw [← ha, hnil]; rfl))
    have htail : middles ++ [sink] = a' ++ c :: b := (List.cons.inj hcalls).2
    have hmem : c ∈ middles ++ [sink] := by rw [htail]; simp
    refine ⟨(hrest c hmem).1, (hrest c hmem).2, fun hpost => ?_⟩
    have hne : b ≠ [] := fun hnil => hpost (List.length_eq_zero_iff.mp (by rw [← hb, hnil]; rfl))
    obtain ⟨b', y, rfl⟩ := (List.eq_nil_or_concat b).resolve_left hne
    have hin : middles = a' ++ c :: b' := by
      have hcat : middles ++ [sink] = (a' ++ c :: b') ++ [y] := by simpa using htail
      exact (List.append_inj' hcat rfl).1
    exact (hmid c (by rw [hin]; simp)).2

/-- What is accepted with its operators in place has the shape. -/
theorem streamlike_of_opsInPlace (ht : Threaded (StreamTaken reg p) h segments calls h')
    (hfits : StreamFits sinkTable h' calls argvs) (hplace : OpsInPlace reg segments) :
    Streamlike sinkTable calls := by
  obtain ⟨source, middles, sink, rfl, hbounded, hname, htable, hargv⟩ := hfits
  have hbehind : ∀ a c b, middles ++ [sink] = a ++ c :: b →
      c.op.bounded = true ∧ c.op.isSource = .ok false ∧ (b ≠ [] → c.op.name ≠ "ingest") := by
    intro a c b hcat
    have ht' : Threaded (StreamTaken reg p) h segments ((source :: a) ++ c :: b) h' := by
      rw [List.cons_append, ← hcat]
      exact ht
    obtain ⟨pre, segment, post, rest, heq, hpre, hpost, hc⟩ := call_segment ht'
    have hin := (hplace pre segment post _ _ rest heq hc).2 fun hnil => by
      rw [hnil] at hpre
      exact absurd hpre (by simp)
    refine ⟨hin.1, hin.2.1, fun hne => hin.2.2 fun hnil => hne ?_⟩
    exact List.length_eq_zero_iff.mp (by rw [← hpost, hnil]; rfl)
  refine ⟨source, middles, sink, rfl, hbounded, ?_, hname, htable, fun c hc => ?_, fun c hc => ?_⟩
  · have ht' : Threaded (StreamTaken reg p) h segments ([] ++ source :: (middles ++ [sink])) h' := ht
    obtain ⟨pre, segment, post, rest, heq, hpre, -, hc⟩ := call_segment ht'
    exact (hplace pre segment post _ _ rest heq hc).1 (List.length_eq_zero_iff.mp hpre)
  · obtain ⟨a, b, hcat⟩ := List.append_of_mem hc
    obtain ⟨hb, hs, -⟩ := hbehind a c b hcat
    exact ⟨hb, hs⟩
  · obtain ⟨argv, ha⟩ := mapM_mem_ok hargv hc
    refine ⟨middleArgv_isSome ha, ?_⟩
    obtain ⟨a, b, hcat⟩ := List.append_of_mem hc
    refine (hbehind a c (b ++ [sink]) (by rw [hcat]; simp)).2.2 (by simp)

/-! ## Nothing happens before the text is accepted -/

variable (reg p) in
theorem streamSegment_events (h : Held ι) (segment : List Char) :
    (streamSegment reg p h segment).events = [] := by
  unfold streamSegment
  split
  · rfl
  · split
    · rfl
    · split <;> rfl

theorem overSegments_events {β : Type} {one : Held ι → List Char → Outcome ι α β}
    (hone : ∀ h segment, (one h segment).events = []) (h : Held ι) (segments : List (List Char)) :
    (overSegments one h segments).events = [] := by
  induction segments generalizing h with
  | nil => rfl
  | cons segment segments ih =>
    have hfirst := hone h segment
    match ho : one h segment with
    | ⟨.error e, h₁, ev⟩ =>
      rw [overSegments_error ho]
      exact (congrArg Outcome.events ho).symm.trans hfirst
    | ⟨.ok x, h₁, ev⟩ =>
      have hev : ev = [] := (congrArg Outcome.events ho).symm.trans hfirst
      rw [overSegments_ok ho, ih h₁, hev]
      rfl

variable (reg p sinkTable) in
theorem streamCompile_events (h : Held ι) (pipeline : List Char) :
    (streamCompile reg p sinkTable h pipeline).events = [] := by
  unfold streamCompile
  split
  · rfl
  · next segments hsplit =>
    split
    · rfl
    · have hloop := overSegments_events (streamSegment_events reg p) h segments
      split
      · next ho => rw [ho] at hloop; exact hloop
      · next ho => rw [ho] at hloop; exact hloop

end StreamShape

/-! ## What is accepted -/

/-- A text that may start a stream has a stream's shape, and any other raises before anything is done,
EXACTLY where the operators it names stand in place, or it is refused in any case. -/
theorem stream_shape_iff {ι α : Type} (reg : Registry ι α) (p : Policy)
    (sinkTable : α → Except PipeExc Unit) (h : Held ι) (pipeline : List Char) :
    ((∀ plan, (streamCompile reg p sinkTable h pipeline).result = .ok plan →
        ∃ segments calls h', splitPipeline pipeline = some segments
          ∧ Threaded (StreamTaken reg p) h segments calls h'
          ∧ streamOf sinkTable h' calls = .ok plan ∧ Streamlike sinkTable calls)
      ∧ ∀ e, (streamCompile reg p sinkTable h pipeline).result = .error e →
          (streamCompile reg p sinkTable h pipeline).events = [])
    ↔ (∀ segments, splitPipeline pipeline = some segments → OpsInPlace reg segments)
        ∨ ¬ Accepted reg p sinkTable h pipeline := by
  constructor
  · rintro ⟨hshape, -⟩
    refine or_iff_not_imp_right.mpr fun hacc segments hsplit => ?_
    obtain ⟨plan, hok⟩ := accepted_iff.mpr (not_not.mp hacc)
    obtain ⟨segments', calls, h', hsplit', ht, -, hlike⟩ := hshape plan hok
    obtain rfl := Option.some.inj (hsplit.symm.trans hsplit')
    exact opsInPlace_of_streamlike ht hlike
  · intro hcond
    refine ⟨fun plan hok => ?_, fun _ _ => streamCompile_events reg p sinkTable h pipeline⟩
    have hacc : Accepted reg p sinkTable h pipeline := accepted_iff.mp ⟨plan, hok⟩
    have hplace := hcond.resolve_right (not_not.mpr hacc)
    obtain ⟨segments, calls, h', hsplit, ht, hplan⟩ := streamCompile_iff.mp hok
    have hfits := (streamOf_iff.mp hplan).1
    exact ⟨segments, calls, h', hsplit, ht, hplan, streamlike_of_opsInPlace ht hfits (hplace segments hsplit)⟩

/-- Two watches and a sink. -/
def twoWatches : List Char := "watch 'a' | watch 'b' | ingest notes".toList

/-- The text may start a stream, and its middle is unbounded: the process that is started for it follows
a file for ever. -/
theorem watch_follows_watch :
    ((streamCompile builtins readOnly notesSink (fun _ => ()) twoWatches).result.toOption.map
        StreamPlan.middles) = some [["tail", "-F", "-n", "+1", "b"]]
      ∧ ∀ segments calls h', splitPipeline twoWatches = some segments →
          Threaded (StreamTaken builtins readOnly) (fun _ => ()) segments calls h' →
          ¬ Streamlike notesSink calls := by
  refine ⟨by decide +kernel, fun segments calls h' hsplit ht hlike => ?_⟩
  have htext : splitPipeline twoWatches
      = some ["watch 'a'".toList, "watch 'b'".toList, "ingest notes".toList] := by decide +kernel
  obtain rfl := Option.some.inj (htext.symm.trans hsplit)
  have hunbounded : (classify builtins "watch 'b'".toList).map (fun x => x.2.1.bounded) = some false := by
    decide +kernel
  obtain ⟨⟨key, op, rest⟩, hc, hb⟩ := Option.map_eq_some_iff.mp hunbounded
  have hplace := opsInPlace_of_streamlike ht hlike ["watch 'a'".toList] _ ["ingest notes".toList]
    key op rest rfl hc
  rw [(hplace.2 (by simp)).1] at hb
  exact absurd hb (by simp)

end Seekbase
