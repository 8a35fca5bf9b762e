/-
# Seekbase.Names — what an entry of a policy's lists means to the registry.

The registry keeps an operator under the lower case of its name and looks a token up by its lower case; a
policy compares the name as it was declared with the entries as they were written.  So an entry that
resolves to an operator need not be an entry about it.

* `Registry.Built`      — the registries `register` can make;
* `resolve_built`       — which tokens an operator answers to;
* `Authorized`          — every operator of a text passes the check at its turn;
* `DenyMeans`, `AllowMeans` — the entry refuses the operator, or the list does not;
* `names_agree_iff`     — exactly when the two agree.
-/
import Seekbase.Spawn

namespace Seekbase

section Names

variable {ι α : Type} {reg : Registry ι α} {p : Policy} {ctx : OperatorCtx} {h : Held ι} {key : String}
  {op : Operator ι α} {segments : List (List Char)}

/-! ## Registries -/

/-- What a chain of registrations leaves. -/
inductive Registry.Built : Registry ι α → Prop
  | empty : Built .empty
  | register {r r' : Registry ι α} {op : Operator ι α} (hr : Built r) (hop : r.register op = .ok r') : Built r'

/-- Every operator is kept under the lower case of its declared name. -/
theorem Registry.Built.key_eq (hr : reg.Built) : ∀ e ∈ reg.ops, e.1 = pyLower e.2.name := by
  induction hr with
  | empty => exact nofun
  | register hr hop ih =>
    intro e he
    rw [Registry.register_ops hop, List.mem_append] at he
    rcases he with hold | hnew
    · exact ih e hold
    · rw [List.mem_singleton.mp hnew]

/-- An operator answers to every spelling of its declared name, and to nothing else. -/
theorem resolve_built (hr : reg.Built) (hop : (key, op) ∈ reg.ops) (token : String) :
    reg.resolve token = some (key, op) ↔ pyLower token = pyLower op.name := by
  have hkey : key = pyLower op.name := hr.key_eq _ hop
  constructor
  · intro hres
    rw [← Registry.resolve_key hres, hkey]
  · intro hlower
    match hres : reg.resolve token with
    | none =>
      have hmiss := List.find?_eq_none.mp hres (key, op) hop
      exact absurd (decide_eq_true (hkey.trans hlower.symm)) hmiss
    | some (key', op') =>
      -- one key has one operator
      have hsame : (key', op') = (key, op) := by
        apply List.inj_on_of_nodup_map reg.keysNodup (Registry.resolve_mem hres) hop
        show key' = key
        rw [Registry.resolve_key hres, hlower, hkey]
      rw [hsame]

theorem built_of_fold {ops : List (Operator ι α)} {r : Registry ι α} (hr : reg.Built)
    (hfold : ops.foldlM Registry.register reg = .ok r) : r.Built := by
  induction ops generalizing reg with
  | nil =>
    obtain rfl := Except.ok.inj hfold
    exact hr
  | cons op ops ih =>
    rw [List.foldlM_cons] at hfold
    match hone : reg.register op with
    | .error e =>
      rw [hone] at hfold
      cases hfold
    | .ok r₁ =>
      rw [hone] at hfold
      exact ih (.register hr hone) hfold

/-! ## Authorization -/

variable (reg p) in
/-- Every operator of a text passes the check at its turn; `step` is what reading a segment makes of the
instances. -/
def Authorized (step : Held ι → List Char → Held ι) (h : Held ι) (segments : List (List Char)) : Prop :=
  ∀ pre segment post key op rest, segments = pre ++ segment :: post →
    classify reg segment = some (key, op, rest) →
    p.check op.name (op.caps (pre.foldl step h key)) = .ok ()

/-- A pipeline that is compiled was authorized. -/
theorem compile_authorized {params : List Val} {phases : List PlanPhase}
    (hok : (compile reg p ctx h segments params).result = .ok phases) :
    Authorized reg p (afterSegment reg ctx) h segments := by
  obtain ⟨staged, h', hthread, -⟩ := compile_iff.mp hok
  intro pre segment post key op rest heq hc
  obtain ⟨a, s, b, h₁, -, -, -, hs⟩ := hthread.split (fun _ _ _ _ => Taken.held) heq
  exact (p.check_ok_iff _ _).mpr (hs.allows hc)

/-- A stream that may start was authorized. -/
theorem streamCompile_authorized {sinkTable : α → Except PipeExc Unit} {pipeline : List Char}
    {plan : StreamPlan α} (hok : (streamCompile reg p sinkTable h pipeline).result = .ok plan) :
    ∃ segments, splitPipeline pipeline = some segments ∧ Authorized reg p (afterArgs reg) h segments := by
  obtain ⟨segments, calls, h', hsplit, hthread, -⟩ := streamCompile_iff.mp hok
  refine ⟨segments, hsplit, ?_⟩
  intro pre segment post key op rest heq hc
  obtain ⟨a, c, b, h₁, -, -, -, rest', hs, hallows, -⟩ :=
    hthread.split (fun _ _ _ _ => StreamTaken.held) heq
  obtain ⟨rfl, rfl, -⟩ : key = c.key ∧ op = c.op ∧ rest = rest' := by simpa [hc] using hs
  exact (p.check_ok_iff _ _).mpr hallows

/-! ## What the lists should mean -/

variable (reg) in
/-- A segment of the text is the operator, however it is spelled. -/
def Uses (key : String) (op : Operator ι α) (segments : List (List Char)) : Prop :=
  ∃ segment ∈ segments, ∃ rest, classify reg segment = some (key, op, rest)

variable (reg p) in
/-- No pipeline and no stream that uses the operator is authorized. -/
def DenyMeans (key : String) (op : Operator ι α) : Prop :=
  ∀ (h : Held ι) (segments : List (List Char)), Uses reg key op segments →
    (∀ ctx, ¬ Authorized reg p (afterSegment reg ctx) h segments)
      ∧ ¬ Authorized reg p (afterArgs reg) h segments

/-- The refusal is about the name. -/
def Denial.ForName : Denial → Prop
  | .byName _ => True
  | .notListed _ => True
  | _ => False

variable (p) in
/-- Whatever its instance keeps, the operator is not refused for its name, unless the deny list has that
name, which wins over everything. -/
def AllowMeans (op : Operator ι α) : Prop :=
  ∀ i d, p.check op.name (op.caps i) = .error (.denied d) → d.ForName → op.name ∈ p.deny

/-! ## When they do -/

variable (p) in
/-- Something else than the deny list refuses the operator, whatever its instance keeps. -/
def RefusedAnyway (op : Operator ι α) : Prop :=
  ∀ i, (∃ c ∈ op.caps i, c ∈ p.denyCaps) ∨ (p.allow ≠ [] ∧ op.name ∉ p.allow)
    ∨ ∃ c ∈ op.caps i, c ∉ p.mode.caps

theorem not_allows_iff {name : String} {caps : List Cap} : ¬ p.Allows name caps ↔ name ∈ p.deny
    ∨ (∃ c ∈ caps, c ∈ p.denyCaps) ∨ (p.allow ≠ [] ∧ name ∉ p.allow) ∨ ∃ c ∈ caps, c ∉ p.mode.caps := by
  constructor
  · intro hno
    by_contra hall
    push Not at hall
    obtain ⟨hname, hcaps, hallow, hmode⟩ := hall
    exact hno ⟨hname, hcaps, or_iff_not_imp_left.mpr hallow, hmode⟩
  · rintro hwhy ⟨hname, hcaps, hallow, hmode⟩
    rcases hwhy with hin | ⟨c, hc, hd⟩ | ⟨hne, hout⟩ | ⟨c, hc, hm⟩
    · exact hname hin
    · exact hcaps c hc hd
    · exact hallow.elim hne hout
    · exact hm (hmode c hc)

theorem denyMeans_iff : DenyMeans reg p key op ↔ op.name ∈ p.deny ∨ RefusedAnyway p op
    ∨ ∀ segment rest, classify reg segment ≠ some (key, op, rest) := by
  constructor
  · intro hmeans
    by_contra hno
    push Not at hno
    obtain ⟨hname, hanyway, segment, rest, hc⟩ := hno
    unfold RefusedAnyway at hanyway
    push Not at hanyway
    obtain ⟨i, hcaps, hallow, hmode⟩ := hanyway
    have hallows : p.Allows op.name (op.caps i) := by
      by_contra hrefused
      rcases not_allows_iff.mp hrefused with hin | ⟨c, hc, hd⟩ | ⟨hne, hout⟩ | ⟨c, hc, hm⟩
      · exact hname hin
      · exact hcaps c hc hd
      · exact hout (hallow hne)
      · exact hm (hmode c hc)
    -- the one segment is a stream's text, and it passes
    apply (hmeans (fun _ => i) [segment] ⟨segment, List.mem_singleton_self _, rest, hc⟩).2
    intro pre x post key' op' rest' heq hx
    match pre with
    | [] =>
      obtain ⟨rfl, -⟩ := List.cons.inj heq
      obtain ⟨rfl, rfl, -⟩ : key = key' ∧ op = op' ∧ rest = rest' := by simpa [hc] using hx
      exact (p.check_ok_iff _ _).mpr hallows
    | y :: pre =>
      have hlen := congrArg List.length heq
      simp at hlen
  · intro hcond h segments ⟨segment, hin, rest, hc⟩
    have hrefused (i : ι) : ¬ p.check op.name (op.caps i) = .ok () := by
      rw [p.check_ok_iff, not_allows_iff]
      rcases hcond with hname | hanyway | hnone
      · exact Or.inl hname
      · exact Or.inr (hanyway i)
      · exact absurd hc (hnone segment rest)
    obtain ⟨pre, post, rfl⟩ := List.append_of_mem hin
    refine ⟨fun ctx hauth => ?_, fun hauth => ?_⟩
    · exact hrefused _ (hauth pre segment post key op rest rfl hc)
    · exact hrefused _ (hauth pre segment post key op rest rfl hc)

/-- The allow list refuses exactly what nothing before it in the order of the check does. -/
theorem check_forName {name : String} {caps : List Cap} (hname : name ∉ p.deny) :
    (∃ d, p.check name caps = .error (.denied d) ∧ d.ForName)
      ↔ (∀ c ∈ caps, c ∉ p.denyCaps) ∧ p.allow ≠ [] ∧ name ∉ p.allow := by
  have hhit : (Cap.sorted.filter fun c => c ∈ caps && c ∈ p.denyCaps) = [] ↔ ∀ c ∈ caps, c ∉ p.denyCaps := by
    rw [filter_sorted_nil]
    simp
  unfold Policy.check
  dsimp only
  rw [if_neg hname]
  split
  · next hsome =>
    refine iff_of_false ?_ fun hno => hsome (hhit.mpr hno.1)
    rintro ⟨d, heq, hfor⟩
    cases heq
    exact hfor
  · next hnone =>
    have hcaps := hhit.mp (not_not.mp hnone)
    split
    · next hlist => exact iff_of_true ⟨_, rfl, trivial⟩ ⟨hcaps, hlist⟩
    · next hlist =>
      refine iff_of_false ?_ fun hno => hlist hno.2
      rintro ⟨d, heq, hfor⟩
      split at heq
      · cases heq
        exact hfor
      · cases heq

theorem allowMeans_iff (hne : p.allow ≠ []) : AllowMeans p op ↔ op.name ∈ p.allow ∨ op.name ∈ p.deny
    ∨ ∀ i, ∃ c ∈ op.caps i, c ∈ p.denyCaps := by
  by_cases hname : op.name ∈ p.deny
  · exact iff_of_true (fun _ _ _ _ => hname) (Or.inr (Or.inl hname))
  · constructor
    · intro hmeans
      by_contra hno
      push Not at hno
      obtain ⟨hout, -, i, hcaps⟩ := hno
      obtain ⟨d, hd, hfor⟩ := (check_forName hname).mpr ⟨hcaps, hne, hout⟩
      exact hname (hmeans i d hd hfor)
    · intro hcond i d hd hfor
      obtain ⟨hcaps, -, hout⟩ := (check_forName hname).mp ⟨d, hd, hfor⟩
      rcases hcond with hin | hin | hall
      · exact absurd hin hout
      · exact hin
      · obtain ⟨c, hc, hdenied⟩ := hall i
        exact absurd hdenied (hcaps c hc)

/-- What an entry that resolves to an operator means.  On the deny list it keeps every text that uses the
operator from being authorized exactly when the list has the declared name, or the policy refuses the
operator for something else, or no text can name it.  On the allow list it keeps the operator from being
refused for its name exactly when that list has the declared name, or the deny list has, or a denied
capability comes first.  What is compiled was authorized. -/
theorem names_agree_iff (hreg : reg.Built) (hop : (key, op) ∈ reg.ops) (p : Policy) :
    (∀ token, reg.resolve token = some (key, op) ↔ pyLower token = pyLower op.name)
    ∧ ((∃ token ∈ p.deny, reg.resolve token = some (key, op)) →
        (DenyMeans reg p key op ↔ op.name ∈ p.deny ∨ RefusedAnyway p op
          ∨ ∀ segment rest, classify reg segment ≠ some (key, op, rest)))
    ∧ ((∃ token ∈ p.allow, reg.resolve token = some (key, op)) →
        (AllowMeans p op ↔ op.name ∈ p.allow ∨ op.name ∈ p.deny
          ∨ ∀ i, ∃ c ∈ op.caps i, c ∈ p.denyCaps))
    ∧ (∀ ctx h segments params phases, (compile reg p ctx h segments params).result = .ok phases →
        Authorized reg p (afterSegment reg ctx) h segments)
    ∧ ∀ sinkTable h pipeline plan, (streamCompile reg p sinkTable h pipeline).result = .ok plan →
        ∃ segments, splitPipeline pipeline = some segments ∧ Authorized reg p (afterArgs reg) h segments := by
  refine ⟨resolve_built hreg hop, fun _ => denyMeans_iff, ?_, ?_, ?_⟩
  · rintro ⟨token, hin, -⟩
    exact allowMeans_iff (List.ne_nil_of_mem hin)
  · exact fun ctx h segments params phases hok => compile_authorized hok
  · exact fun sinkTable h pipeline plan hok => streamCompile_authorized hok

end Names

/-! ## The built-in shell -/

theorem builtins_built : builtins.Built := by
  unfold builtins
  split
  · next r hr => exact built_of_fold .empty hr
  · exact .empty

theorem sh_mem : ("sh", (sh : Operator Unit Args)) ∈ builtins.ops := by
  have hkey : pyLower (sh : Operator Unit Args).name = "sh" := by decide
  rw [builtins_ops]
  refine List.mem_map.mpr ⟨sh, by simp [builtinOperators], ?_⟩
  rw [hkey]

/-- Declared, listed and written as `sh`. -/
theorem names_agree_iff_sh : DenyMeans builtins ⟨.trusted, [], ["sh"], []⟩ "sh" sh
    ∧ AllowMeans ⟨.trusted, ["sh"], [], []⟩ (sh : Operator Unit Args) := by
  have hres : builtins.resolve "sh" = some ("sh", sh) := (resolve_built builtins_built sh_mem "sh").mpr rfl
  constructor
  · apply ((names_agree_iff builtins_built sh_mem _).2.1 ⟨"sh", List.mem_singleton_self _, hres⟩).mpr
    exact Or.inl (List.mem_singleton_self _)
  · apply ((names_agree_iff builtins_built sh_mem _).2.2.1 ⟨"sh", List.mem_singleton_self _, hres⟩).mpr
    exact Or.inl (List.mem_singleton_self _)

/-- `SH` resolves to the shell.  On the deny list it refuses nothing, not even a text that spells it so; on
the allow list it refuses the shell. -/
theorem spelling_missed : builtins.resolve "SH" = some ("sh", sh)
    ∧ ¬ DenyMeans builtins ⟨.sandboxed, [], ["SH"], []⟩ "sh" sh
    ∧ ((compile builtins ⟨.sandboxed, [], ["SH"], []⟩ notesCtx (fun _ => ())
        ["SELECT 1 AS a".toList, "SH 'ls'".toList] []).result.toOption.isSome = true)
    ∧ ¬ AllowMeans ⟨.sandboxed, ["SH"], [], []⟩ (sh : Operator Unit Args) := by
  have hres : builtins.resolve "SH" = some ("sh", sh) :=
    (resolve_built builtins_built sh_mem "SH").mpr (by decide)
  refine ⟨hres, ?_, by decide +kernel, ?_⟩
  · have hlead : lead "SH".toList = some ("SH", []) := by decide
    have hc : classify builtins "SH".toList = some ("sh", sh, []) := by
      rw [classify, hlead]
      show (builtins.resolve "SH").map _ = _
      rw [hres]
      rfl
    rw [denyMeans_iff]
    rintro (hin | hanyway | hnone)
    · exact absurd hin (by decide)
    · rcases hanyway () with ⟨c, -, hd⟩ | ⟨hne, -⟩ | ⟨c, hc, hm⟩
      · cases hd
      · exact hne rfl
      · obtain rfl := List.mem_singleton.mp hc
        exact hm (by decide)
    · exact hnone _ _ hc
  · intro hmeans
    have hin := hmeans () _ rfl trivial
    cases hin

end Seekbase
