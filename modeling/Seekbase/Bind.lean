/-
# Seekbase.Bind — parameters reach their own placeholders.

The compiler hands out the user's parameters by counting, stage by stage and phase by phase, puts the
operators' own values between them, and pastes the stages into one statement; the database then counts
again, over the whole statement.  `SaysPlan` is written without either count: each stage says its text
with its own values in it, a phase what its stages say.  The plan says that.

It rests on the splitter: every segment but the last is closed, so the text pasted behind a segment is
read as it was meant.  The last one may leave a literal open, and nothing behind it is a placeholder.

* `SaysRun`, `SaysPlan` — what the stages of a run, and the phases of a plan, are to say;
* `fuseStages_says`, `phasesOf_says` — they do;
* `params_reach_holes`  — for every pipeline of SQL and built-in operators.
-/
import Seekbase.Lower
import Seekbase.Spawn

namespace Seekbase

section Bind

variable (repr : String → String) (schema : Schema) (dim : Nat)
  (embed : Option (String → Except PipeExc (Val × String))) (w : Window) {ι : Type}

/-! ## What a plan is to say -/

/-- A segment and the user's parameters that are its own: those of a statement replace its placeholders,
an operator has none of them. -/
def SaysStage (own : List Val) : Staged ι Args → Filled → Prop
  | .sql segment, said =>
    own.length = countPlaceholders none segment ∧ said = fill (.code false) segment own
  | .duck _ _ args, said => own = [] ∧ Says repr schema dim embed w args said
  | .bash _ _ _, _ => False

/-- `_in` is the stage before. -/
def behind (prev : Option String) (said : Filled) : Filled :=
  match prev with
  | none => said
  | some prev => ofText ("WITH _in AS (SELECT * FROM " ++ prev ++ ") ") ++ said

/-- The stages of a run by name, with the parameters `mine` of the user's. -/
def SaysRun : Nat → Option String → List Val → List (Staged ι Args) → List (String × Filled) → Prop
  | _, _, mine, [], ctes => mine = [] ∧ ctes = []
  | n, prev, mine, s :: rest, ctes =>
    ∃ own more said ctes', mine = own ++ more ∧ SaysStage repr schema dim embed w own s said
      ∧ ctes = (stageName n, behind prev said) :: ctes'
      ∧ SaysRun (n + 1) (some (stageName n)) more rest ctes'

def saidChain (ctes : List (String × Filled)) (prev : Option String) : Filled :=
  ofText "WITH "
    ++ (ofText ", ").intercalate (ctes.map fun c => ofText (c.1 ++ " AS (") ++ (c.2 ++ ofText ")"))
    ++ ofText (" SELECT * FROM " ++ ((ctes.getLast?.map Prod.fst).or prev).getD "None")

/-- The phases of a plan, of the runs they are made of: `user` is what is left of the user's parameters,
and all of it is used. -/
def SaysPlan : Bool → List Val → List (Run ι Args) → List PlanPhase → Prop
  | _, user, [], phases => user = [] ∧ phases = []
  | _, user, .bash _ :: rs, phases =>
    ∃ argvs rest, phases = .bash argvs :: rest ∧ SaysPlan false user rs rest
  | first, user, .duck items :: rs, phases =>
    ∃ mine more sql params rest ctes, user = mine ++ more ∧ phases = .duck sql params :: rest
      ∧ SaysRun repr schema dim embed w 0 (if first then none else some "_bridge") mine items ctes
      ∧ params.length = countPlaceholders none sql.toList
      ∧ fill (.code false) sql.toList params = saidChain ctes (if first then none else some "_bridge")
      ∧ SaysPlan false more rs rest

/-! ## Stages -/

/-- The segment ends outside literals. -/
def Staged.Shut : Staged ι Args → Prop
  | .sql segment => (Scan.code false).over segment = .code false
  | _ => True

/-- What the operator's cell emits is what it is to say. -/
def Staged.Ready : Staged ι Args → Prop
  | .duck _ op args => ∀ self sql vals,
    ((∃ code, op.optimizeDuck = some (.source code) ∧ code self args = .ok (sql, vals))
      ∨ ∃ code, op.optimizeDuck = some (.middle code) ∧ code self "_in" args = .ok (sql, vals)) →
    ∃ said, Says repr schema dim embed w args said ∧ Emits sql vals said
  | _ => True

variable {repr schema dim embed w} {h : Held ι} {params left : List Val}

/-- A name the framework gives a relation. -/
def Named (prev : Option String) : Prop := ∀ name, prev = some name → Calm name

theorem calm_stageName (n : Nat) : Calm (stageName n) := by
  have hlit : Calm "_s" :=
    calm_of (P := isIdentChar) rfl rfl rfl rfl (List.all_eq_true.mp (by decide +kernel))
  exact hlit.append (calm_repr n)

theorem calm_bridge : Calm "_bridge" :=
  calm_of (P := isIdentChar) rfl rfl rfl rfl (List.all_eq_true.mp (by decide +kernel))

theorem still_withIn {prev : String} (h : Calm prev) :
    Still ("WITH _in AS (SELECT * FROM " ++ prev ++ ") ") :=
  Still.append (Still.append (by decide +kernel) h.still) (by decide +kernel)

/-- A stage's body. -/
def pasted (prev : Option String) (sql : String) : String :=
  match prev with
  | none => sql
  | some prev => withIn prev sql

theorem pasted_toList (prev sql : String) : (pasted (some prev) sql).toList
    = ("WITH _in AS (SELECT * FROM " ++ prev ++ ") ").toList ++ sql.toList :=
  String.toList_append

/-- What stands behind a stage's head is filled as it is alone. -/
theorem emits_behind {prev : Option String} (hprev : Named prev) {sql : String} {vals : List Val}
    {said : Filled} (hfed : vals.length = holes (.code false) sql.toList)
    (hfilled : fill (.code false) sql.toList vals = said) :
    vals.length = holes (.code false) (pasted prev sql).toList
      ∧ fill (.code false) (pasted prev sql).toList vals = behind prev said
      ∧ (Scan.code false).over (pasted prev sql).toList = (Scan.code false).over sql.toList := by
  cases prev with
  | none => exact ⟨hfed, hfilled, rfl⟩
  | some prev =>
    have hhead := still_withIn (hprev prev rfl)
    rw [pasted_toList, Silent.holes_append hhead, Silent.fill_append hhead, Scan.over_append,
      hhead.closed, hfilled]
    exact ⟨hfed, rfl, rfl⟩

/-- One stage: its text takes its own values, and says what it is to say. -/
theorem fuseItem_says {s : Staged ι Args} {prev : Option String} {body : String} {used : List Val}
    (hs : s.Ready repr schema dim embed w) (hprev : Named prev)
    (ho : fuseItem h prev params s = .ok (body, used, left)) :
    ∃ own said, params = own ++ left ∧ SaysStage repr schema dim embed w own s said
      ∧ used.length = holes (.code false) body.toList
      ∧ fill (.code false) body.toList used = behind prev said
      ∧ (s.Shut → (Scan.code false).over body.toList = .code false) := by
  match s with
  | .bash _ _ _ => cases ho
  | .sql segment =>
    unfold fuseItem at ho
    dsimp only at ho
    split at ho
    · cases ho
    · next hle =>
      obtain ⟨hbody, hrest⟩ := Prod.mk.inj (Except.ok.inj ho)
      obtain ⟨rfl, rfl⟩ := Prod.mk.inj hrest
      have hbody : pasted prev (String.ofList segment) = body := hbody
      subst hbody
      have hlength : (params.take (countPlaceholders none segment)).length
          = countPlaceholders none segment := by
        rw [List.length_take]
        omega
      have hfed : (params.take (countPlaceholders none segment)).length
          = holes (.code false) (String.ofList segment).toList := by
        rw [hlength, String.toList_ofList, countPlaceholders_eq none segment quoteState_none]
        rfl
      obtain ⟨hholes, hfill, hover⟩ := emits_behind hprev hfed rfl
      rw [String.toList_ofList] at hfill hover
      refine ⟨_, _, (List.take_append_drop _ _).symm, ⟨hlength, rfl⟩, hholes, hfill, ?_⟩
      intro hshut
      rw [hover]
      exact hshut
  | .duck key op args =>
    obtain ⟨rfl, ⟨rfl, -, code, hd, hcode⟩ | ⟨name, code, sql, rfl, -, hd, hcode, rfl⟩⟩ :=
      fuseItem_duck_ok_iff.mp ho
    · obtain ⟨said, hsays, hemits⟩ := hs (h key) body used (Or.inl ⟨code, hd, hcode⟩)
      exact ⟨[], said, rfl, ⟨rfl, hsays⟩, hemits.fed, hemits.filled, fun _ => hemits.closed⟩
    · obtain ⟨said, hsays, hemits⟩ := hs (h key) sql used (Or.inr ⟨code, hd, hcode⟩)
      obtain ⟨hholes, hfill, hover⟩ := emits_behind hprev hemits.fed hemits.filled
      refine ⟨[], said, rfl, ⟨rfl, hsays⟩, hholes, hfill, fun _ => ?_⟩
      exact hover.trans hemits.closed

/-! ## Runs -/

def cteText (c : String × String) : List Char := (c.1 ++ " AS (" ++ c.2 ++ ")").toList

def cteSaid (c : String × Filled) : Filled := ofText (c.1 ++ " AS (") ++ (c.2 ++ ofText ")")

theorem cteText_eq (name body : String) :
    cteText (name, body) = (name ++ " AS (").toList ++ (body.toList ++ [')']) := by
  rw [cteText, String.toList_append, String.toList_append, List.append_assoc]
  rfl

/-- A stage in the chain takes its own values. -/
theorem cte_fed {name body : String} {used : List Val} {said : Filled} (hname : Calm name)
    (hfed : used.length = holes (.code false) body.toList)
    (hfill : fill (.code false) body.toList used = said) :
    (Piece.mk (cteText (name, body)) used).Fed
      ∧ (Piece.mk (cteText (name, body)) used).filled = cteSaid (name, said)
      ∧ ((Scan.code false).over body.toList = .code false →
        (Piece.mk (cteText (name, body)) used).Closed) := by
  have hhead : Still (name ++ " AS (") := Still.append hname.still (by decide +kernel)
  have hlast (s : Scan) : holes s [')'] = 0 := holes_of_not_mem s (by decide)
  have hbody := fill_append (.code false) body.toList [')'] used [] hfed
  rw [List.append_nil, fill_of_no_holes _ (hlast _), hfill] at hbody
  refine ⟨?_, ?_, ?_⟩
  · show used.length = holes _ (cteText (name, body))
    rw [cteText_eq, Silent.holes_append hhead, holes_append, hlast, hfed]
    rfl
  · show fill _ (cteText (name, body)) used = _
    rw [cteText_eq, Silent.fill_append hhead, hbody]
    rfl
  · intro hclosed
    show Scan.over _ (cteText (name, body)) = _
    rw [cteText_eq, Scan.over_append, hhead.closed, Scan.over_append, hclosed]
    rfl

/-- The stages of a chain as pieces with their own values. -/
structure Glued (ctes : List (String × String)) (used : List Val) (said : List (String × Filled))
    (ps : List Piece) : Prop where
  text : ps.map Piece.text = ctes.map cteText
  own : ps.flatMap Piece.own = used
  filled : ps.map Piece.filled = said.map cteSaid
  names : said.map Prod.fst = ctes.map Prod.fst
  calm : ∀ c ∈ ctes, Calm c.1
  fed : ∀ p ∈ ps, p.Fed
  closed : ∀ p ∈ ps.dropLast, p.Closed

theorem named_stage (n : Nat) : Named (some (stageName n)) := by
  intro name hname
  rw [← Option.some.inj hname]
  exact calm_stageName n

/-- A run hands out the parameters in the order of its stages. -/
theorem fuseStages_says {stages : List (Staged ι Args)} {n : Nat} {prev : Option String}
    {ctes : List (String × String)} {used : List Val}
    (hs : ∀ s ∈ stages, s.Ready repr schema dim embed w) (hshut : ∀ s ∈ stages.dropLast, s.Shut)
    (hprev : Named prev) (ho : fuseStages h n prev params stages = .ok (ctes, used, left)) :
    ∃ mine said ps, params = mine ++ left ∧ SaysRun repr schema dim embed w n prev mine stages said
      ∧ Glued ctes used said ps ∧ ps.length = stages.length := by
  induction stages generalizing n prev params ctes used with
  | nil =>
    obtain ⟨rfl, rfl, rfl⟩ : [] = ctes ∧ [] = used ∧ params = left := by simpa [fuseStages] using ho
    exact ⟨[], [], [], rfl, ⟨rfl, rfl⟩, ⟨rfl, rfl, rfl, rfl, by simp, by simp, by simp⟩, rfl⟩
  | cons s stages ih =>
    obtain ⟨body, first, between, ctes', used', hone, hrest, rfl, rfl⟩ := fuseStages_cons_ok_iff.mp ho
    obtain ⟨own, said, rfl, hsays, hholes, hfill, hclosed⟩ :=
      fuseItem_says (hs s List.mem_cons_self) hprev hone
    have htail : ∀ x ∈ stages.dropLast, x.Shut := by
      intro x hx
      cases stages with
      | nil => cases hx
      | cons s' stages => exact hshut x (List.mem_cons_of_mem s hx)
    obtain ⟨mine, saids, ps, rfl, hrun, hglued, hlength⟩ :=
      ih (fun x hx => hs x (List.mem_cons_of_mem s hx)) htail (named_stage n) hrest
    obtain ⟨hfed, hfilled, hpiece⟩ := cte_fed (calm_stageName n) hholes hfill
    refine ⟨own ++ mine, (stageName n, behind prev said) :: saids,
      ⟨cteText (stageName n, body), first⟩ :: ps, (List.append_assoc _ _ _).symm,
      ⟨own, mine, said, saids, rfl, hsays, rfl, hrun⟩, ?_, congrArg (· + 1) hlength⟩
    refine ⟨?_, ?_, ?_, ?_, ?_, ?_, ?_⟩
    · exact congrArg (cteText (stageName n, body) :: ·) hglued.text
    · exact congrArg (first ++ ·) hglued.own
    · rw [List.map_cons, List.map_cons, hfilled, hglued.filled]
    · exact congrArg (stageName n :: ·) hglued.names
    · intro c hc
      rcases List.mem_cons.mp hc with rfl | hc
      · exact calm_stageName n
      · exact hglued.calm c hc
    · intro p hp
      rcases List.mem_cons.mp hp with rfl | hp
      · exact hfed
      · exact hglued.fed p hp
    · intro p hp
      cases ps with
      | nil => cases hp
      | cons p' ps =>
        rcases List.mem_cons.mp hp with rfl | hp
        · -- there is a stage behind, so the segment of this one is not the last
          refine hpiece (hclosed (hshut s ?_))
          cases stages with
          | nil => simp at hlength
          | cons s' stages => exact List.mem_cons_self
        · exact hglued.closed p hp

theorem chainSql_toList (ctes : List (String × String)) (prev : Option String) :
    (chainSql ctes prev).toList = "WITH ".toList ++ (", ".toList.intercalate (ctes.map cteText)
    ++ (" SELECT * FROM " ++ ((ctes.getLast?.map Prod.fst).or prev).getD "None").toList) := by
  have hctes : ctes.map cteText
    = (ctes.map fun c => c.1 ++ " AS (" ++ c.2 ++ ")").map String.toList := by
    rw [List.map_map]
    rfl
  rw [hctes, ← String.toList_intercalate, ← String.toList_append, ← String.toList_append, chainSql]
  simp only [String.append_assoc]

theorem bridge_named (fromBridge : Bool) : Named (if fromBridge then some "_bridge" else none) := by
  intro name hname
  cases fromBridge with
  | false => cases hname
  | true =>
    rw [← Option.some.inj hname]
    exact calm_bridge

/-- The statement of a run says what its stages say. -/
theorem fuseDuckRun_says {items : List (Staged ι Args)} {fromBridge : Bool} {sql : String}
    {used : List Val} (hne : items ≠ []) (hs : ∀ s ∈ items, s.Ready repr schema dim embed w)
    (hshut : ∀ s ∈ items.dropLast, s.Shut)
    (ho : fuseDuckRun h items params fromBridge = .ok (sql, used, left)) :
    ∃ mine ctes, params = mine ++ left
      ∧ SaysRun repr schema dim embed w 0 (if fromBridge then some "_bridge" else none) mine items ctes
      ∧ used.length = countPlaceholders none sql.toList
      ∧ fill (.code false) sql.toList used
        = saidChain ctes (if fromBridge then some "_bridge" else none) := by
  have hprev := bridge_named fromBridge
  unfold fuseDuckRun at ho
  generalize (if fromBridge then some "_bridge" else none : Option String) = prev at *
  obtain ⟨⟨ctes, used', left'⟩, hstages, hpair⟩ := map_ok_iff.mp ho
  obtain ⟨rfl, rfl, rfl⟩ : chainSql ctes prev = sql ∧ used' = used ∧ left' = left := by simpa using hpair
  obtain ⟨mine, said, ps, rfl, hrun, hglued, hlength⟩ := fuseStages_says hs hshut hprev hstages
  refine ⟨mine, said, rfl, hrun, ?_⟩
  have hnames : said.getLast?.map Prod.fst = ctes.getLast?.map Prod.fst := by
    rw [← List.getLast?_map, ← List.getLast?_map, hglued.names]
  have hlast : Calm (((ctes.getLast?.map Prod.fst).or prev).getD "None") := by
    cases hc : ctes.getLast? with
    | none =>
      cases prev with
      | none => exact calm_of (P := isIdentChar) rfl rfl rfl rfl (List.all_eq_true.mp (by decide +kernel))
      | some name => exact hprev name rfl
    | some c => exact hglued.calm c (List.mem_of_getLast? hc)
  have htail : Still (" SELECT * FROM " ++ ((ctes.getLast?.map Prod.fst).or prev).getD "None") :=
    Still.append (by decide +kernel) hlast.still
  have hhead : Still "WITH " := by decide +kernel
  have hsep : Still ", " := by decide +kernel
  have hps : ps ≠ [] := by
    rintro rfl
    exact hne (List.length_eq_zero_iff.mp hlength.symm)
  obtain ⟨hholes, hfill⟩ := fill_glue hsep htail.noMark hps hglued.fed hglued.closed
  rw [hglued.text, hglued.own] at hholes hfill
  refine ⟨?_, ?_⟩
  · rw [countPlaceholders_eq none _ quoteState_none, chainSql_toList]
    show _ = holes (.code false) _
    rw [Silent.holes_append hhead, hholes]
  · rw [chainSql_toList, Silent.fill_append hhead, hfill, hglued.filled, saidChain, hnames,
      List.append_assoc]
    rfl

/-- The phases say what their runs say. -/
theorem phasesOf_says {first : Bool} {rs : List (Run ι Args)} {phases : List PlanPhase}
    (huni : ∀ r ∈ rs, r.Uniform) (hs : ∀ s ∈ rs.flatMap Run.items, s.Ready repr schema dim embed w)
    (hshut : ∀ s ∈ (rs.flatMap Run.items).dropLast, s.Shut)
    (ho : phasesOf h first params rs = .ok (phases, [])) :
    SaysPlan repr schema dim embed w first params rs phases := by
  induction rs generalizing first params phases with
  | nil =>
    obtain ⟨rfl, rfl⟩ : [] = phases ∧ params = [] := by simpa [phasesOf] using ho
    exact ⟨rfl, rfl⟩
  | cons r rs ih =>
    have hr := huni r List.mem_cons_self
    rw [List.flatMap_cons] at hs hshut
    have hitems : ∀ s ∈ r.items.dropLast, s.Shut := by
      intro s hmem
      refine hshut s ?_
      rw [List.dropLast_append]
      split
      · exact hmem
      · exact List.mem_append_left _ (List.dropLast_subset _ hmem)
    have hrest : ∀ s ∈ (rs.flatMap Run.items).dropLast, s.Shut := by
      intro s hmem
      refine hshut s ?_
      rw [List.dropLast_append]
      split
      · next hnil =>
        rw [List.isEmpty_iff.mp hnil] at hmem
        cases hmem
      · exact List.mem_append_right _ hmem
    have hreadyItems : ∀ s ∈ r.items, s.Ready repr schema dim embed w :=
      fun s hmem => hs s (List.mem_append_left _ hmem)
    have hready : ∀ s ∈ rs.flatMap Run.items, s.Ready repr schema dim embed w :=
      fun s hmem => hs s (List.mem_append_right _ hmem)
    have hmore (params : List Val) (phases : List PlanPhase)
        (ho : phasesOf h false params rs = .ok (phases, [])) :
        SaysPlan repr schema dim embed w false params rs phases :=
      ih (fun x hx => huni x (List.mem_cons_of_mem r hx)) hready hrest ho
    cases r with
    | bash items =>
      obtain ⟨-, argvs, phases', -, hphases, rfl⟩ := phasesOf_bash_ok_iff.mp ho
      exact ⟨_, phases', rfl, hmore params phases' hphases⟩
    | duck items =>
      obtain ⟨sql, used, between, phases', hrun, hphases, rfl⟩ := phasesOf_duck_ok_iff.mp ho
      obtain ⟨mine, ctes, rfl, hsays, hcount, hfill⟩ := fuseDuckRun_says hr.1 hreadyItems hitems hrun
      have hprev : (if (!first) = true then some "_bridge" else none : Option String)
          = if first then none else some "_bridge" := by
        cases first <;> rfl
      rw [hprev] at hsays hfill
      exact ⟨mine, between, sql, used, phases', ctes, rfl, rfl, hsays, hcount, hfill,
        hmore between phases' hphases⟩

theorem planOf_says {staged : List (Staged ι Args)} {phases : List PlanPhase}
    (hs : ∀ s ∈ staged, s.Ready repr schema dim embed w) (hshut : ∀ s ∈ staged.dropLast, s.Shut)
    (ho : planOf h params staged = .ok phases) :
    SaysPlan repr schema dim embed w true params (runs staged) phases := by
  obtain ⟨hflat, huni⟩ := runs_spec staged
  rw [← hflat] at hs hshut
  exact phasesOf_says huni hs hshut (planOf_phases_iff.mp ho)

/-! ## Too few, too many -/

/-- The user's parameters a segment takes. -/
def Staged.need : Staged ι Args → Nat
  | .sql segment => countPlaceholders none segment
  | _ => 0

def needs (stages : List (Staged ι Args)) : Nat := (stages.map Staged.need).sum

theorem needs_cons (s : Staged ι Args) (stages : List (Staged ι Args)) :
    needs (s :: stages) = s.need + needs stages := by
  rw [needs, List.map_cons, List.sum_cons]
  rfl

theorem needs_append (a b : List (Staged ι Args)) : needs (a ++ b) = needs a + needs b := by
  rw [needs, List.map_append, List.sum_append]
  rfl

/-- A step of the lowering that takes `need` parameters off the front of any list, and refuses one that
is shorter. -/
def Consumes (need : Nat) (step : List Val → Except PipeExc (List Val)) : Prop :=
  ∀ params, (need ≤ params.length ∧ step params = .ok (params.drop need))
    ∨ (params.length < need ∧ ∃ e, step params = .error e ∧ e.cls = "QueryError")

theorem Consumes.bind {m n : Nat} {f g : List Val → Except PipeExc (List Val)} (hf : Consumes m f)
    (hg : Consumes n g) : Consumes (m + n) fun params => f params >>= g := by
  intro params
  rcases hf params with ⟨hle, hok⟩ | ⟨hlt, e, herr, hcls⟩
  · have hlength : (params.drop m).length = params.length - m := List.length_drop
    rcases hg (params.drop m) with ⟨hle', hok'⟩ | ⟨hlt', e, herr, hcls⟩
    · refine Or.inl ⟨by omega, ?_⟩
      show (f params >>= g) = _
      rw [hok, ← List.drop_drop]
      exact hok'
    · refine Or.inr ⟨by omega, e, ?_, hcls⟩
      show (f params >>= g) = _
      rw [hok]
      exact herr
  · refine Or.inr ⟨by omega, e, ?_, hcls⟩
    show (f params >>= g) = _
    rw [herr]
    rfl

theorem Consumes.ok {need : Nat} {step : List Val → Except PipeExc (List Val)} (hc : Consumes need step)
    (ho : step params = .ok left) : params.length = need + left.length := by
  rcases hc params with ⟨hle, hok⟩ | ⟨-, e, herr, -⟩
  · rw [hok] at ho
    obtain rfl := Except.ok.inj ho
    rw [List.length_drop]
    omega
  · rw [herr] at ho
    cases ho

/-- What is left of the parameters. -/
def leftOf {β : Type} (r : Except PipeExc (β × List Val × List Val)) : Except PipeExc (List Val) :=
  r.map fun r => r.2.2

/-- A segment that is lowered with one list of parameters is lowered with any list that is long
enough: nothing else of it depends on them. -/
theorem fuseItem_consumes {s : Staged ι Args} {prev : Option String} {r : String × List Val × List Val}
    (ho : fuseItem h prev params s = .ok r) :
    Consumes s.need fun params => leftOf (fuseItem h prev params s) := by
  intro params'
  match s with
  | .bash _ _ _ => cases ho
  | .sql segment =>
    dsimp only [fuseItem, Staged.need]
    by_cases hlt : params'.length < countPlaceholders none segment
    · rw [if_pos hlt]
      exact Or.inr ⟨hlt, _, rfl, rfl⟩
    · rw [if_neg hlt]
      exact Or.inl ⟨by omega, rfl⟩
  | .duck key op args =>
    obtain ⟨-, hsource, hcode⟩ := (fuseItem_iff rfl).mp ⟨r.1, r.2.1, ho⟩
    obtain ⟨body, used, hok⟩ : ∃ body used,
        fuseItem h prev params' (.duck key op args) = .ok (body, used, params') :=
      (fuseItem_iff rfl).mpr ⟨rfl, hsource, hcode⟩
    refine Or.inl ⟨Nat.zero_le _, ?_⟩
    show leftOf (fuseItem h prev params' (.duck key op args)) = _
    rw [hok]
    rfl

theorem fuseStages_consumes {stages : List (Staged ι Args)} {n : Nat} {prev : Option String}
    {r : List (String × String) × List Val × List Val} (ho : fuseStages h n prev params stages = .ok r) :
    Consumes (needs stages) fun params => leftOf (fuseStages h n prev params stages) := by
  induction stages generalizing n prev params r with
  | nil => exact fun params' => Or.inl ⟨Nat.zero_le _, rfl⟩
  | cons s stages ih =>
    obtain ⟨body, first, between, ctes', used', hone, hrest, -⟩ := fuseStages_cons_ok_iff.mp ho
    have hboth := (fuseItem_consumes hone).bind (ih hrest)
    have hsteps (params : List Val) : leftOf (fuseStages h n prev params (s :: stages))
        = leftOf (fuseItem h prev params s) >>= fun between =>
          leftOf (fuseStages h (n + 1) (some (stageName n)) between stages) := by
      rw [fuseStages]
      cases fuseItem h prev params s with
      | error e => rfl
      | ok one =>
        dsimp only [leftOf, Except.map, bind, Except.bind]
        cases fuseStages h (n + 1) (some (stageName n)) one.2.2 stages <;> rfl
    rw [needs_cons, funext hsteps]
    exact hboth

theorem phasesOf_consumes {first : Bool} {rs : List (Run ι Args)} {r : List PlanPhase × List Val}
    (huni : ∀ r ∈ rs, r.Uniform) (ho : phasesOf h first params rs = .ok r) :
    Consumes (needs (rs.flatMap Run.items)) fun params => (phasesOf h first params rs).map Prod.snd := by
  induction rs generalizing first params r with
  | nil => exact fun params' => Or.inl ⟨Nat.zero_le _, rfl⟩
  | cons run rs ih =>
    have hrest := fun x hx => huni x (List.mem_cons_of_mem run hx)
    rw [List.flatMap_cons, needs_append]
    cases run with
    | bash items =>
      have hnone : needs items = 0 := by
        rw [needs, List.sum_eq_zero]
        intro n hn
        obtain ⟨s, hs, rfl⟩ := List.mem_map.mp hn
        have hbash := (huni _ List.mem_cons_self).2 s hs
        cases s with
        | sql segment => cases hbash
        | duck key op args => rfl
        | bash key op args => rfl
      obtain ⟨rfl, argvs, phases', hargvs, hphases, -⟩ := phasesOf_bash_ok_iff.mp ho
      have hsteps (params : List Val) : (phasesOf h false params (.bash items :: rs)).map Prod.snd
          = (phasesOf h false params rs).map Prod.snd := by
        rw [phasesOf, hargvs]
        dsimp only
        cases phasesOf h false params rs <;> rfl
      show Consumes (needs items + _) _
      rw [hnone, Nat.zero_add, funext hsteps]
      exact ih hrest hphases
    | duck items =>
      obtain ⟨sql, used, between, phases', hrun, hphases, -⟩ := phasesOf_duck_ok_iff.mp ho
      obtain ⟨⟨ctes, used', between'⟩, hstages, hpair⟩ := map_ok_iff.mp hrun
      obtain ⟨-, -, rfl⟩ : _ ∧ _ ∧ between' = between := by simpa using hpair
      have hboth := (fuseStages_consumes hstages).bind (ih hrest hphases)
      have hsteps (params : List Val) : (phasesOf h first params (.duck items :: rs)).map Prod.snd
          = leftOf (fuseStages h 0 (if (!first) = true then some "_bridge" else none) params items)
            >>= fun between => (phasesOf h false between rs).map Prod.snd := by
        rw [phasesOf, fuseDuckRun]
        cases fuseStages h 0 (if (!first) = true then some "_bridge" else none) params items with
        | error e => rfl
        | ok r =>
          dsimp only [leftOf, Except.map, bind, Except.bind]
          cases phasesOf h false r.2.2 rs <;> rfl
      rw [funext hsteps]
      exact hboth

/-- Another number of parameters is refused. -/
theorem planOf_other {staged : List (Staged ι Args)} {phases : List PlanPhase}
    (ho : planOf h params staged = .ok phases) {params' : List Val}
    (hne : params'.length ≠ params.length) :
    ∃ e, planOf h params' staged = .error e ∧ e.cls = "QueryError" := by
  obtain ⟨-, huni⟩ := runs_spec staged
  have hp := planOf_phases_iff.mp ho
  have hc := phasesOf_consumes huni hp
  have hlength := hc.ok (congrArg (Except.map Prod.snd) hp)
  rw [List.length_nil, Nat.add_zero] at hlength
  unfold planOf
  rcases hc params' with ⟨hle, hok⟩ | ⟨-, e, herr, hcls⟩
  · -- too many are left over
    obtain ⟨⟨phases', left⟩, hphases, hleft⟩ := map_ok_iff.mp hok
    have hmore : left.length = params'.length - params.length := by
      have hleft : left = params'.drop (needs ((runs staged).flatMap Run.items)) := hleft
      rw [hleft, List.length_drop, hlength]
    rw [hphases]
    cases left with
    | nil =>
      rw [List.length_nil] at hmore
      omega
    | cons v left => exact ⟨_, rfl, rfl⟩
  · -- too few: a segment finds none to take
    refine ⟨e, ?_, hcls⟩
    have herr : (phasesOf h true params' (runs staged)).map Prod.snd = .error e := herr
    rw [map_error_iff.mp herr]

/-! ## Pipelines -/

/-- What a loop over segments has taken, segment by segment. -/
theorem Threaded.forall₂ {β : Type} {R : Held ι → List Char → β → Held ι → Prop} {h h' : Held ι}
    {segments : List (List Char)} {xs : List β} (ht : Threaded R h segments xs h') :
    List.Forall₂ (fun segment x => ∃ h₁ h₂, R h₁ segment x h₂) segments xs := by
  induction segments generalizing h xs with
  | nil =>
    rw [ht.1]
    exact .nil
  | cons segment segments ih =>
    obtain ⟨x, rest, h₁, rfl, hx, hrest⟩ := ht
    exact .cons ⟨h, h₁, hx⟩ (ih hrest)

theorem forall₂_dropLast {β γ : Type} {R : β → γ → Prop} {l : List β} {m : List γ}
    (h : List.Forall₂ R l m) : List.Forall₂ R l.dropLast m.dropLast := by
  rw [List.dropLast_eq_take, List.dropLast_eq_take, h.length_eq]
  exact List.forall₂_take _ h

/-- Every segment but the last ends outside literals. -/
theorem segments_closed {text : List Char} {segments : List (List Char)}
    (hsplit : splitPipeline text = some segments) :
    ∀ segment ∈ segments.dropLast, (Scan.code false).over segment = .code false := by
  obtain ⟨rfl, -⟩ := splitPipeline_eq_some_iff.mp hsplit
  have hnil : Uncut [] := fun x y h => by simp at h
  intro segment hs
  rw [← List.map_dropLast] at hs
  obtain ⟨p, hp, rfl⟩ := List.mem_map.mp hs
  exact closed_strip (cutPipes_uncut none [] text quoteState_none rfl hnil p (List.dropLast_subset _ hp))
    (cutPipes_closed none [] text quoteState_none rfl p hp)

section Taken

variable {reg : Registry ι Args} {p : Policy} {h₁ h₂ : Held ι} {segment : List Char}
  {s : Staged ι Args}

theorem Taken.shut (ht : Taken reg p (storeCtx repr schema dim embed w) h₁ segment s h₂)
    (hclosed : (Scan.code false).over segment = .code false) : s.Shut := by
  rcases ht with ⟨-, -, rfl, -⟩ | ⟨key, op, rest, args, h₃, args', -, -, -, -, -, hassign⟩
  · exact hclosed
  · cases s with
    | sql segment' =>
      unfold assign at hassign
      repeat' split at hassign
      all_goals cases hassign
    | duck key op args => trivial
    | bash key op args => trivial

theorem Taken.ready {alnum : Char → Bool} (hal : AlnumLaws alnum) (hw : w.Dated)
    (ht : Taken reg p (storeCtx repr schema dim embed w) h₁ segment s h₂)
    (hop : ∀ key op rest, classify reg segment = some (key, op, rest) → op ∈ builtinOperators alnum) :
    s.Ready repr schema dim embed w := by
  rcases ht with ⟨-, -, rfl, -⟩ | ⟨key, op, rest, args, h₃, args', hc, -, -, hprep, -, hassign⟩
  · trivial
  · unfold assign at hassign
    split at hassign
    · obtain rfl := Except.ok.inj hassign
      intro self sql vals hcode
      exact builtin_emits hal hw (hop key op rest hc) hprep hcode
    · split at hassign
      · split at hassign
        · cases hassign
        · obtain rfl := Except.ok.inj hassign
          trivial
        · cases hassign
      · cases hassign

end Taken

end Bind

section Params

variable {ι : Type} {reg : Registry ι Args} {p : Policy} {repr : String → String} {schema : Schema}
  {dim : Nat} {embed : Option (String → Except PipeExc (Val × String))} {w : Window} {h : Held ι}
  {text : List Char} {segments : List (List Char)} {params : List Val} {phases : List PlanPhase}

/-- PARAMETERS.  A pipeline of SQL and built-in operators that compiles has, at every placeholder, the
value that belongs there: a parameter of the user's where the placeholder was written in a segment, and
the operator's own value where an operator emitted it; phase by phase, and in the user's order.  With
another number of parameters it is refused. -/
theorem params_reach_holes {alnum : Char → Bool} (hal : AlnumLaws alnum) (hw : w.Dated)
    (hsplit : splitPipeline text = some segments)
    (hops : ∀ segment ∈ segments, ∀ key op rest, classify reg segment = some (key, op, rest) →
      op ∈ builtinOperators alnum)
    (hok : (compile reg p (storeCtx repr schema dim embed w) h segments params).result = .ok phases) :
    (∃ staged h', Threaded (Taken reg p (storeCtx repr schema dim embed w)) h segments staged h'
      ∧ SaysPlan repr schema dim embed w true params (runs staged) phases)
    ∧ ∀ params' : List Val, params'.length ≠ params.length → ∃ e,
      (compile reg p (storeCtx repr schema dim embed w) h segments params').result = .error e
        ∧ e.cls = "QueryError" := by
  obtain ⟨staged, h', ht, hplan⟩ := compile_iff.mp hok
  have hpairs := ht.forall₂
  refine ⟨⟨staged, h', ht, planOf_says ?_ ?_ hplan⟩, ?_⟩
  · intro s hs
    obtain ⟨segment, hmem, h₁, h₂, htaken⟩ := forall₂_left hpairs.flip hs
    exact htaken.ready hal hw (hops segment hmem)
  · intro s hs
    obtain ⟨segment, hmem, h₁, h₂, htaken⟩ := forall₂_left (forall₂_dropLast hpairs).flip hs
    exact htaken.shut (segments_closed hsplit segment hmem)
  · intro params' hne
    obtain ⟨e, herr, hcls⟩ := planOf_other hplan hne
    refine ⟨e, ?_, hcls⟩
    have hstage : ∃ ev, stage reg p (storeCtx repr schema dim embed w) h segments = ⟨.ok staged, h', ev⟩ :=
      (overSegments_iff fun _ _ _ _ => stageSegment_iff).mpr ht
    obtain ⟨ev, hstage⟩ := hstage
    rw [compile, hstage]
    exact herr

end Params

def boundCtx : OperatorCtx :=
  storeCtx id ⟨[searchNotes], searchNotes_nodup⟩ 2 (some fun text => .ok (.json (.str text), text))
    ⟨none, some "20260102"⟩

def boundSegments : List (List Char) :=
  ["search notes 'x'".toList, "SELECT * FROM _in WHERE id = ? OR text = '?'".toList,
    "grep 'a' --field text".toList]

/-- Five placeholders, of which one is the user's. -/
theorem params_reach_holes_search : ∃ phases, (∃ staged h',
      Threaded (Taken builtins readOnly boundCtx) (fun _ => ()) boundSegments staged h'
      ∧ SaysPlan id ⟨[searchNotes], by decide⟩ 2 (some fun text => .ok (.json (.str text), text))
        ⟨none, some "20260102"⟩ true [.json (.str "n1")] (runs staged) phases)
    ∧ ∀ params' : List Val, params'.length ≠ 1 → ∃ e,
      (compile builtins readOnly boundCtx (fun _ => ()) boundSegments params').result = .error e
        ∧ e.cls = "QueryError" := by
  have hsome : (compile builtins readOnly boundCtx (fun _ => ()) boundSegments
      [.json (.str "n1")]).result.toOption.isSome = true := by decide +kernel
  obtain ⟨phases, hphases⟩ := Option.isSome_iff_exists.mp hsome
  have hok : (compile builtins readOnly boundCtx (fun _ => ()) boundSegments
      [.json (.str "n1")]).result = .ok phases := by
    match hr : (compile builtins readOnly boundCtx (fun _ => ()) boundSegments
        [.json (.str "n1")]).result with
    | .error e =>
      rw [hr] at hphases
      cases hphases
    | .ok phases' =>
      rw [hr] at hphases
      rw [Option.some.inj hphases]
  have hlaws : AlnumLaws Char.isAlphanum := ⟨rfl, rfl, rfl, rfl⟩
  have hdated : Window.Dated ⟨none, some "20260102"⟩ := by
    refine ⟨by simp, fun d hd => ?_⟩
    rw [← Option.some.inj hd]
    decide +kernel
  have hsplit : splitPipeline
      "search notes 'x' | SELECT * FROM _in WHERE id = ? OR text = '?' | grep 'a' --field text".toList
      = some boundSegments := by decide +kernel
  refine ⟨phases, params_reach_holes hlaws hdated hsplit ?_ hok⟩
  intro segment _ key op rest hc
  unfold classify at hc
  split at hc
  · next token rest' _ =>
    match hr : builtins.resolve token with
    | none => simp [hr] at hc
    | some e =>
      have hmem : (e.1, e.2) ∈ builtins.ops := Registry.resolve_mem hr
      rw [builtins_ops] at hmem
      obtain ⟨op', hop', he⟩ := List.mem_map.mp hmem
      simp only [hr, Option.map_some, Option.some.injEq, Prod.mk.injEq] at hc
      obtain ⟨-, rfl, -⟩ := hc
      rw [← (Prod.mk.inj he).2]
      exact hop'
  · cases hc

end Seekbase
