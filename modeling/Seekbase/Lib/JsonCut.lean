/-
# Seekbase.Lib.JsonCut — cut object texts, and what is glued onto them.

An object's text is UNFINISHED at every cut before its closing brace: the machine is inside the
outermost object (`State.Inside`).  Text of a further object glued onto a cut one never leads out of
it again: it is absorbed by an open string, nested where a value was expected, or refused.

* `step_inside`   — one character leads out of the outermost object only by closing it;
* `run_weaken`    — a run does not look below the part of the stack it was started on;
* `run_glued`     — a further object's text, cut anywhere, never closes the cut one;
* `Stuck`         — so no prefix of the glued text is a JSON text.
-/
import Seekbase.Lib.JsonRoundTrip

namespace JsonText

/-! ## Inside the outermost object -/

/-- The modes in which an object is open that is not on the stack yet. -/
def Mode.inObject : Mode → Bool
  | .key _ _ | .colon _ _ | .str _ _ (.key _) => true
  | _ => false

/-- The rest of a literal is spelled without a brace. -/
def Mode.Spelled : Mode → Prop
  | .lit rest _ => '{' ∉ rest
  | _ => True

/-- An outermost container is open. -/
structure State.Inside (s : State) : Prop where
  isOpen : s.stack ≠ [] ∨ s.mode.inObject = true
  spelled : s.mode.Spelled

/-- The outermost value is finished. -/
def State.Closed (s : State) : Prop := s.stack = [] ∧ ∃ v, s.mode = .after v

theorem State.Inside.finish {s : State} (h : s.Inside) : s.finish = none := by
  obtain ⟨K, mode⟩ := s
  unfold State.finish
  rcases h.isOpen with hK | hmode
  · cases K with
    | nil => exact absurd rfl hK
    | cons f K => rfl
  · cases mode <;> simp_all [Mode.inObject]

theorem State.Closed.spelled {s : State} (h : s.Closed) : s.mode.Spelled := by
  obtain ⟨-, v, hv⟩ := h
  rw [hv]; trivial

theorem inside_of_stack {K : List Frame} {mode : Mode} (hK : K ≠ []) (hm : mode.Spelled) :
    State.Inside ⟨K, mode⟩ := ⟨Or.inl hK, hm⟩

/-- A finished value closes the container it was the last part of, or stays inside. -/
theorem inside_or_closed_after (K : List Frame) (v : Json) :
    State.Inside ⟨K, .after v⟩ ∨ State.Closed ⟨K, .after v⟩ := by
  cases K with
  | nil => exact Or.inr ⟨rfl, v, rfl⟩
  | cons f K => exact Or.inl (inside_of_stack (List.cons_ne_nil f K) trivial)

theorem startValue_inside {K : List Frame} {c : Char} {t : State} (hK : K ≠ [])
    (h : startValue K c = some t) : t.Inside := by
  unfold startValue at h
  split_ifs at h <;> obtain rfl := Option.some.inj h <;>
    exact ⟨Or.inl (by simp [hK]), by simp [Mode.Spelled]⟩

theorem afterValue_inside {K : List Frame} {v : Json} {c : Char} {t : State} (hK : K ≠ [])
    (h : afterValue K v c = some t) : t.Inside ∨ t.Closed := by
  cases K with
  | nil => exact absurd rfl hK
  | cons f K =>
    cases f with
    | arr xs =>
      simp only [afterValue] at h
      split_ifs at h <;> obtain rfl := Option.some.inj h
      · exact inside_or_closed_after _ v
      · exact Or.inl (inside_of_stack (List.cons_ne_nil _ _) trivial)
      · exact inside_or_closed_after K _
    | obj ms k =>
      simp only [afterValue] at h
      split_ifs at h <;> obtain rfl := Option.some.inj h
      · exact inside_or_closed_after _ v
      · exact Or.inl ⟨Or.inr rfl, trivial⟩
      · exact inside_or_closed_after K _

/-- Inside a string one character keeps the slot, or closes the string for it. -/
theorem stepStr_slot {buf : List Char} {esc : Esc} {slot : Slot} {c : Char} {m : Mode}
    (h : stepStr buf esc slot c = some m) :
    (∃ buf' esc', m = .str buf' esc' slot) ∨ m = closeStr buf slot := by
  unfold stepStr at h
  split at h
  · split_ifs at h <;> obtain rfl := Option.some.inj h
    · exact Or.inr rfl
    · exact Or.inl ⟨_, _, rfl⟩
    · exact Or.inl ⟨_, _, rfl⟩
  · split_ifs at h
    · obtain rfl := Option.some.inj h
      exact Or.inl ⟨_, _, rfl⟩
    · obtain ⟨d, -, rfl⟩ := Option.map_eq_some_iff.mp h
      exact Or.inl ⟨_, _, rfl⟩
  · split at h
    · exact absurd h (by simp)
    · split_ifs at h
      · obtain rfl := Option.some.inj h
        exact Or.inl ⟨_, _, rfl⟩
      · unfold closeHex at h
        split at h <;> split_ifs at h <;> obtain rfl := Option.some.inj h <;>
          exact Or.inl ⟨_, _, rfl⟩
  · split_ifs at h
    obtain rfl := Option.some.inj h
    exact Or.inl ⟨_, _, rfl⟩

/-- One character leads out of the outermost object only by closing it. -/
theorem step_inside {s t : State} {c : Char} (hs : s.Inside) (h : s.step c = some t) :
    t.Inside ∨ t.Closed := by
  obtain ⟨K, mode⟩ := s
  have hstack : mode.inObject = false → K ≠ [] := by
    intro hm
    rcases hs.isOpen with hK | hopen
    · exact hK
    · exact absurd hopen (by simp [hm])
  cases mode with
  | value => exact Or.inl (startValue_inside (hstack rfl) h)
  | first =>
    have hK := hstack rfl
    simp only [State.step] at h
    split_ifs at h
    · obtain rfl := Option.some.inj h
      exact Or.inl hs
    · split at h
      · obtain rfl := Option.some.inj h
        exact inside_or_closed_after _ _
      · exact absurd h (by simp)
    · exact Or.inl (startValue_inside hK h)
  | key ms fst =>
    simp only [State.step] at h
    split_ifs at h <;> obtain rfl := Option.some.inj h
    · exact Or.inl hs
    · exact Or.inl ⟨Or.inr rfl, trivial⟩
    · exact inside_or_closed_after _ _
  | colon ms k =>
    simp only [State.step] at h
    split_ifs at h <;> obtain rfl := Option.some.inj h
    · exact Or.inl hs
    · exact Or.inl (inside_of_stack (List.cons_ne_nil _ _) trivial)
  | str buf esc slot =>
    obtain ⟨m, hm, rfl⟩ := Option.map_eq_some_iff.mp h
    cases slot with
    | value =>
      have hK := hstack rfl
      rcases stepStr_slot hm with ⟨buf', esc', rfl⟩ | rfl
      · exact Or.inl (inside_of_stack hK trivial)
      · exact Or.inl (inside_of_stack hK trivial)
    | key ms =>
      rcases stepStr_slot hm with ⟨buf', esc', rfl⟩ | rfl
      · exact Or.inl ⟨Or.inr rfl, trivial⟩
      · exact Or.inl ⟨Or.inr rfl, trivial⟩
  | num buf =>
    have hK := hstack rfl
    simp only [State.step] at h
    split_ifs at h
    · obtain rfl := Option.some.inj h
      exact Or.inl (inside_of_stack hK trivial)
    · obtain rfl := Option.some.inj h
      exact Or.inl (inside_of_stack hK (by simp [Mode.Spelled]))
    · obtain ⟨v, -, hv⟩ := Option.bind_eq_some_iff.mp h
      exact afterValue_inside hK hv
  | lit rest v =>
    have hK := hstack rfl
    have hrest : '{' ∉ rest := hs.spelled
    cases rest with
    | nil => exact absurd h (by simp [State.step])
    | cons r rs =>
      simp only [State.step] at h
      split_ifs at h <;> obtain rfl := Option.some.inj h
      · exact inside_or_closed_after K v
      · exact Or.inl (inside_of_stack hK (fun hmem => hrest (List.mem_cons_of_mem r hmem)))
  | after v => exact afterValue_inside (hstack rfl) h

theorem step_closed {s t : State} {c : Char} (hs : s.Closed) (h : s.step c = some t) :
    isWs c = true ∧ t.Closed := by
  obtain ⟨K, mode⟩ := s
  obtain ⟨rfl, v, rfl⟩ : K = [] ∧ ∃ v, mode = .after v := hs
  simp only [State.step, afterValue] at h
  split_ifs at h with hws
  obtain rfl := Option.some.inj h
  exact ⟨hws, rfl, v, rfl⟩

theorem run_closed {s t : State} {cs : List Char} (hs : s.Closed) (h : s.run cs = some t) :
    ∀ c ∈ cs, isWs c = true := by
  induction cs generalizing s with
  | nil => simp
  | cons c cs ih =>
    obtain ⟨u, hu, ht⟩ := Option.bind_eq_some_iff.mp h
    obtain ⟨hc, hclosed⟩ := step_closed hs hu
    intro d hd
    rcases List.mem_cons.mp hd with rfl | hd
    · exact hc
    · exact ih hclosed ht d hd

theorem run_inside_or_closed {s t : State} {cs : List Char} (hs : s.Inside ∨ s.Closed)
    (h : s.run cs = some t) : t.Inside ∨ t.Closed := by
  induction cs generalizing s with
  | nil => obtain rfl := Option.some.inj h; exact hs
  | cons c cs ih =>
    obtain ⟨u, hu, ht⟩ := Option.bind_eq_some_iff.mp h
    refine ih ?_ ht
    rcases hs with hin | hclosed
    · exact step_inside hin hu
    · exact Or.inr (step_closed hclosed hu).2

/-! ## A run on a deeper stack -/

/-- The same state on a deeper stack. -/
def State.on (K : List Frame) (s : State) : State := ⟨s.stack ++ K, s.mode⟩

theorem startValue_on (S K : List Frame) (c : Char) :
    startValue (S ++ K) c = (startValue S c).map (State.on K) := by
  unfold startValue
  simp only [apply_ite (Option.map (State.on K)), Option.map_some, Option.map_none, State.on,
    List.cons_append]

theorem startValue_weaken {S K : List Frame} {c : Char} {t : State}
    (h : startValue S c = some t) : startValue (S ++ K) c = some (t.on K) := by
  rw [startValue_on, h]; rfl

theorem afterValue_weaken {S K : List Frame} {v : Json} {c : Char} {t : State}
    (h : afterValue S v c = some t) : afterValue (S ++ K) v c = some (t.on K) := by
  cases S with
  | nil =>
    simp only [afterValue] at h
    split_ifs at h with hws
    obtain rfl := Option.some.inj h
    simp [afterValue, hws, State.on]
  | cons f S =>
    cases f <;>
    · simp only [List.cons_append, afterValue] at h ⊢
      split_ifs at h ⊢ <;> obtain rfl := Option.some.inj h <;> rfl

theorem step_weaken {S K : List Frame} {mode : Mode} {c : Char} {t : State}
    (h : State.step ⟨S, mode⟩ c = some t) :
    State.step ⟨S ++ K, mode⟩ c = some (t.on K) := by
  cases mode with
  | value => exact startValue_weaken h
  | first =>
    cases S with
    | nil =>
      simp only [State.step] at h
      split_ifs at h with hws hb
      · obtain rfl := Option.some.inj h
        simp [State.step, hws, State.on]
      · have hstart := startValue_weaken (K := K) h
        simpa [State.step, hws, hb] using hstart
    | cons f S =>
      simp only [State.step, List.cons_append] at h ⊢
      split_ifs at h ⊢
      · obtain rfl := Option.some.inj h; rfl
      · obtain rfl := Option.some.inj h; rfl
      · exact startValue_weaken h
  | key ms fst =>
    simp only [State.step] at h ⊢
    split_ifs at h ⊢ <;> obtain rfl := Option.some.inj h <;> rfl
  | colon ms k =>
    simp only [State.step] at h ⊢
    split_ifs at h ⊢ <;> obtain rfl := Option.some.inj h <;> rfl
  | str buf esc slot =>
    obtain ⟨m, hm, rfl⟩ := Option.map_eq_some_iff.mp h
    simp [State.step, hm, State.on]
  | num buf =>
    simp only [State.step] at h ⊢
    split_ifs at h ⊢
    · obtain rfl := Option.some.inj h; rfl
    · obtain rfl := Option.some.inj h; rfl
    · obtain ⟨v, hv, ht⟩ := Option.bind_eq_some_iff.mp h
      exact Option.bind_eq_some_iff.mpr ⟨v, hv, afterValue_weaken ht⟩
  | lit rest v =>
    cases rest with
    | nil => exact absurd h (by simp [State.step])
    | cons r rs =>
      simp only [State.step] at h ⊢
      split_ifs at h ⊢ <;> obtain rfl := Option.some.inj h <;> rfl
  | after v => exact afterValue_weaken h

/-- A run does not look below the part of the stack it was started on. -/
theorem run_weaken {S K : List Frame} {mode : Mode} {cs : List Char} {t : State}
    (h : State.run ⟨S, mode⟩ cs = some t) :
    State.run ⟨S ++ K, mode⟩ cs = some (t.on K) := by
  induction cs generalizing S mode with
  | nil => obtain rfl := Option.some.inj h; rfl
  | cons c cs ih =>
    obtain ⟨u, hu, ht⟩ := Option.bind_eq_some_iff.mp h
    rw [State.run_cons, step_weaken hu, Option.bind_some]
    exact ih ht

/-! ## Cuts of one object's text -/

theorem dumpMembers_last (ms : List (String × Json)) (fst : Bool) :
    ∃ body, dumpMembers escChar fst ms = body ++ ['}'] := by
  induction ms generalizing fst with
  | nil => exact ⟨[], rfl⟩
  | cons kv ms ih =>
    obtain ⟨body, hbody⟩ := ih false
    exact ⟨_, by rw [dumpMembers, hbody, ← List.append_assoc]⟩

/-- An object's text stands between its braces. -/
theorem dumps_obj_braces (ms : List (String × Json)) :
    ∃ body, dumps (.obj ms) = '{' :: body ++ ['}'] := by
  obtain ⟨body, hbody⟩ := dumpMembers_last ms true
  exact ⟨body, by rw [dumps, dumpsWith, hbody]; rfl⟩

theorem start_step_brace : start.step '{' = some ⟨[], .key [] true⟩ := by
  simp [start, State.step, startValue, isWs]

/-- Every cut of an object's text can be run, and a cut before its end is inside the object. -/
theorem run_cut {ms : List (String × Json)} {p r : List Char} (h : p ++ r = dumps (.obj ms))
    (hp : p ≠ []) : ∃ s, start.run p = some s ∧ s.mode.Spelled ∧ (r ≠ [] → s.Inside) := by
  obtain ⟨t, ht, -⟩ := run_dumpsWith run_escChar (.obj ms) []
  obtain ⟨body, hbody⟩ := dumps_obj_braces ms
  have hrun : start.run (p ++ r) = some t := by rw [h]; exact ht
  rw [State.run_append] at hrun
  obtain ⟨s, hs, hr⟩ := Option.bind_eq_some_iff.mp hrun
  obtain ⟨c, p', rfl⟩ := List.exists_cons_of_ne_nil hp
  have hc : c = '{' := by
    rw [hbody] at h
    exact (List.cons.inj h).1
  subst hc
  have hs' := hs
  rw [State.run_cons, start_step_brace] at hs'
  have hopen : State.Inside ⟨[], .key [] true⟩ := ⟨Or.inr rfl, trivial⟩
  rcases run_inside_or_closed (Or.inl hopen) hs' with hin | hclosed
  · exact ⟨s, hs, hin.spelled, fun _ => hin⟩
  · refine ⟨s, hs, hclosed.spelled, fun hne => ?_⟩
    -- only blanks may follow a finished text, but what is left of it ends with a brace
    have hlast : '}' ∈ r := by
      have hl : (('{' :: p') ++ r).getLast? = some '}' := by
        rw [h, hbody, List.getLast?_append]; rfl
      rw [List.getLast?_append_of_ne_nil _ hne] at hl
      exact List.mem_of_getLast? hl
    exact absurd (run_closed hclosed hr '}' hlast) (by decide)

/-- Only blanks may follow the text of an object. -/
theorem loads_followed {ms : List (String × Json)} {c : Char} {cs : List Char} (hc : isWs c = false) :
    loads (dumps (.obj ms) ++ c :: cs) = none := by
  obtain ⟨t, ht, hready⟩ := run_dumpsWith run_escChar (.obj ms) []
  change start.run (dumps (.obj ms)) = some t at ht
  have hclosed : t.Closed := by
    obtain ⟨body, hbody⟩ := dumps_obj_braces ms
    have hopen : State.Inside ⟨[], .key [] true⟩ := ⟨Or.inr rfl, trivial⟩
    have hrun := ht
    rw [hbody, List.cons_append, State.run_cons, start_step_brace] at hrun
    rcases run_inside_or_closed (Or.inl hopen) hrun with hin | hclosed
    · -- an open state holds no value
      have hfinish := hin.finish
      rw [hready.finish] at hfinish
      cases hfinish
    · exact hclosed
  rw [loads, State.run_append, ht, Option.bind_some]
  cases hrest : t.run (c :: cs) with
  | none => rfl
  | some u =>
    have hblank := run_closed hclosed hrest c List.mem_cons_self
    rw [hc] at hblank
    cases hblank

/-! ## A further object's text on a cut one -/

/-- A character that is written as it is and separates nothing: a key may start with it. -/
def Opens (c : Char) : Prop := escChar c = [c] ∧ isWs c = false ∧ c ∉ [',', ']', '}', ':', '"']

/-- The objects whose first key starts with such a character. -/
def Keyed : List (String × Json) → Prop
  | (k, _) :: _ => ∃ c r, k.toList = c :: r ∧ Opens c
  | [] => False

theorem dumps_keyed {ms : List (String × Json)} (h : Keyed ms) :
    ∃ c r, Opens c ∧ dumps (.obj ms) = '{' :: '"' :: c :: r := by
  cases ms with
  | nil => exact h.elim
  | cons kv ms =>
    obtain ⟨k, v⟩ := kv
    obtain ⟨c, r, hk, hc⟩ := h
    have hesc : escChar c = [c] := hc.1
    refine ⟨c, r.flatMap escChar ++ '"' :: ':' :: ' ' :: (dumps v ++ dumpMembers escChar false ms),
      hc, ?_⟩
    simp [dumps, dumpsWith, dumpMembers, dumpStr, hk, hesc]

theorem afterValue_opens {K : List Frame} {v : Json} {c : Char} (hc : Opens c) :
    afterValue K v c = none := by
  obtain ⟨-, hws, hsep⟩ := hc
  simp only [List.mem_cons, List.not_mem_nil, or_false, not_or] at hsep
  obtain ⟨hcomma, hb, hbrace, -, -⟩ := hsep
  unfold afterValue
  cases K with
  | nil => simp [hws]
  | cons f K => cases f <;> simp [hws, hcomma, hb, hbrace]

theorem opens_brace : Opens '{' := by unfold Opens; decide

/-- Where a string is not open, a brace is refused or starts a nested object. -/
theorem step_brace {s t : State} (hs : s.Inside) (h : s.step '{' = some t) :
    t = ⟨s.stack, .key [] true⟩ ∧ s.stack ≠ []
      ∨ ∃ buf slot, s.mode = .str buf .plain slot ∧ t = ⟨s.stack, .str (buf ++ ['{']) .plain slot⟩ := by
  obtain ⟨K, mode⟩ := s
  have hstack : mode.inObject = false → K ≠ [] := by
    intro hm
    rcases hs.isOpen with hK | hopen
    · exact hK
    · exact absurd hopen (by simp [hm])
  cases mode with
  | value =>
    refine Or.inl ⟨?_, hstack rfl⟩
    simpa [State.step, startValue, isWs] using h.symm
  | first =>
    refine Or.inl ⟨?_, hstack rfl⟩
    simpa [State.step, startValue, isWs] using h.symm
  | key ms fst => simp [State.step, isWs] at h
  | colon ms k => simp [State.step, isWs] at h
  | str buf esc slot =>
    cases esc with
    | plain =>
      refine Or.inr ⟨buf, slot, rfl, ?_⟩
      simpa [State.step, stepStr] using h.symm
    | slash hi => cases hi <;> simp [State.step, stepStr, unescape] at h
    | hex hi k acc => simp [State.step, stepStr, hexVal] at h
    | high hi => simp [State.step, stepStr] at h
  | num buf =>
    have hnum : isNumChar '{' = false := by decide
    have hI : ¬ (buf = ['-'] ∧ '{' = 'I') := fun hb => absurd hb.2 (by decide)
    simp only [State.step, hnum, Bool.false_eq_true, if_false, if_neg hI] at h
    obtain ⟨v, -, hv⟩ := Option.bind_eq_some_iff.mp h
    rw [afterValue_opens opens_brace] at hv
    exact absurd hv (by simp)
  | lit rest v =>
    cases rest with
    | nil => exact absurd h (by simp [State.step])
    | cons r rs =>
      have hne : '{' ≠ r := by
        intro hr
        have hrest : '{' ∉ r :: rs := hs.spelled
        exact hrest (hr ▸ List.mem_cons_self)
      simp [State.step, hne] at h
  | after v =>
    have hnone := afterValue_opens (K := K) (v := v) opens_brace
    exact absurd h (by simp [State.step, hnone])

theorem State.Inside.str {K : List Frame} {buf : List Char} {esc : Esc} {slot : Slot}
    (h : State.Inside ⟨K, .str buf esc slot⟩) (buf' : List Char) (esc' : Esc) :
    State.Inside ⟨K, .str buf' esc' slot⟩ := by
  refine ⟨?_, trivial⟩
  cases slot with
  | value => exact Or.inl (h.isOpen.resolve_right (by simp [Mode.inObject]))
  | key ms => exact Or.inr rfl

theorem State.Inside.closeStr {K : List Frame} {buf : List Char} {esc : Esc} {slot : Slot}
    (h : State.Inside ⟨K, .str buf esc slot⟩) (buf' : List Char) :
    State.Inside ⟨K, closeStr buf' slot⟩ := by
  cases slot with
  | value => exact inside_of_stack (h.isOpen.resolve_right (by simp [Mode.inObject])) trivial
  | key ms => exact ⟨Or.inr rfl, trivial⟩

theorem step_closeStr_opens {K : List Frame} {buf : List Char} {slot : Slot} {c : Char}
    (hc : Opens c) : State.step ⟨K, closeStr buf slot⟩ c = none := by
  cases slot with
  | value => exact afterValue_opens hc
  | key ms =>
    obtain ⟨-, hws, hsep⟩ := hc
    simp only [List.mem_cons, List.not_mem_nil, or_false, not_or] at hsep
    simp [closeStr, State.step, hws, hsep.2.2.2.1]

/-- A further object's text, cut anywhere, never closes the object it was glued into. -/
theorem run_glued {s t : State} {ms : List (String × Json)} {q : List Char} (hs : s.Inside)
    (hms : Keyed ms) (hq : q <+: dumps (.obj ms)) (h : s.run q = some t) : t.Inside := by
  obtain ⟨c, r, hc, hD⟩ := dumps_keyed hms
  cases q with
  | nil => obtain rfl := Option.some.inj h; exact hs
  | cons b q =>
    have hq' := hq
    rw [hD, List.cons_prefix_cons] at hq'
    obtain ⟨rfl, hq'⟩ := hq'
    obtain ⟨u, hu, ht⟩ := Option.bind_eq_some_iff.mp h
    rcases step_brace hs hu with ⟨rfl, hK⟩ | ⟨buf, slot, hmode, rfl⟩
    · -- a nested object: its text runs as it does alone, on a stack that is not empty
      obtain ⟨rest, hrest⟩ := hq
      obtain ⟨w, hw, hspelled, -⟩ := run_cut hrest (List.cons_ne_nil _ _)
      rw [State.run_cons, start_step_brace, Option.bind_some] at hw
      have hdeep := run_weaken (K := s.stack) hw
      rw [List.nil_append] at hdeep
      obtain rfl := Option.some.inj (hdeep.symm.trans ht)
      exact inside_of_stack (List.append_ne_nil_of_right_ne_nil w.stack hK) hspelled
    · -- inside a string the brace is text, the quote closes the string, and the key's first
      -- character, which separates nothing, is refused
      obtain ⟨K, mode⟩ := s
      obtain rfl : mode = .str buf .plain slot := hmode
      cases q with
      | nil => obtain rfl := Option.some.inj ht; exact hs.str _ _
      | cons b q =>
        obtain ⟨rfl, hkey⟩ := List.cons_prefix_cons.mp hq'
        have hquote : State.step ⟨K, .str (buf ++ ['{']) .plain slot⟩ '"'
            = some ⟨K, closeStr (buf ++ ['{']) slot⟩ := by simp [State.step, stepStr]
        rw [State.run_cons, hquote, Option.bind_some] at ht
        cases q with
        | nil => obtain rfl := Option.some.inj ht; exact hs.closeStr _
        | cons b q =>
          obtain ⟨rfl, -⟩ := List.cons_prefix_cons.mp hkey
          rw [State.run_cons, step_closeStr_opens hc] at ht
          exact absurd ht (by simp)

/-! ## No control character is written -/

theorem escChar_ge (c : Char) : ∀ d ∈ escChar c, 32 ≤ d.toNat := by
  have hhex : ∀ n, n < 16 → 32 ≤ (hexDigit n).toNat := by decide
  unfold escChar
  intro d hd
  cases hs : shortEscape c with
  | some e =>
    have he : 32 ≤ e.toNat := by
      unfold shortEscape at hs
      split_ifs at hs <;> obtain rfl := Option.some.inj hs <;> decide
    simp only [hs, List.mem_cons, List.not_mem_nil, or_false] at hd
    rcases hd with rfl | rfl
    · decide
    · exact he
  | none =>
    simp only [hs] at hd
    split_ifs at hd with h32
    · simp only [List.mem_cons, List.not_mem_nil, or_false] at hd
      rcases hd with rfl | rfl | rfl | rfl | rfl | rfl
      · decide
      · decide
      · decide
      · decide
      · exact hhex _ (by omega)
      · exact hhex _ (by omega)
    · obtain rfl := List.mem_singleton.mp hd
      omega

theorem dumpStr_ge (s : String) : ∀ d ∈ dumpStr escChar s, 32 ≤ d.toNat := by
  intro d hd
  simp only [dumpStr, List.cons_append, List.mem_cons, List.mem_append, List.mem_flatMap,
    List.not_mem_nil, or_false] at hd
  rcases hd with rfl | ⟨c, -, hd⟩ | rfl
  · decide
  · exact escChar_ge c d hd
  · decide

theorem all_ge {cs : List Char} (h : (cs.all fun d => 32 ≤ d.toNat) = true) : ∀ d ∈ cs, 32 ≤ d.toNat := by
  simpa using h

theorem isNumChar_ge {d : Char} (h : isNumChar d = true) : 32 ≤ d.toNat := by
  simp only [isNumChar, Bool.or_eq_true, beq_iff_eq] at h
  rcases h with ((((h | rfl) | rfl) | rfl) | rfl) | rfl
  · have h48 : 48 ≤ d.toNat := (Char.isDigit_iff_toNat.mp h).1
    omega
  · decide
  · decide
  · decide
  · decide
  · decide

mutual
theorem dumps_ge : ∀ (j : Json), ∀ d ∈ dumps j, 32 ≤ d.toNat
  | .null => all_ge rfl
  | .bool true => all_ge rfl
  | .bool false => all_ge rfl
  | .int i => fun d hd => isNumChar_ge (int_chars i d hd)
  | .dec x => fun d hd => isNumChar_ge (x.chars d hd)
  | .nan => all_ge rfl
  | .inf => all_ge rfl
  | .negInf => all_ge rfl
  | .str s => dumpStr_ge s
  | .arr xs => fun d hd => by
    rcases List.mem_cons.mp hd with rfl | hd
    · decide
    · exact dumpItems_ge xs true d hd
  | .obj ms => fun d hd => by
    rcases List.mem_cons.mp hd with rfl | hd
    · decide
    · exact dumpMembers_ge ms true d hd
theorem dumpItems_ge : ∀ (xs : List Json) (fst : Bool), ∀ d ∈ dumpItems escChar fst xs, 32 ≤ d.toNat
  | [], fst => by simp [dumpItems]
  | x :: xs, fst => fun d hd => by
    rw [dumpItems, List.mem_append, List.mem_append] at hd
    rcases hd with (hd | hd) | hd
    · exact all_ge (by cases fst <;> rfl) d hd
    · exact dumps_ge x d hd
    · exact dumpItems_ge xs false d hd
theorem dumpMembers_ge : ∀ (ms : List (String × Json)) (fst : Bool),
    ∀ d ∈ dumpMembers escChar fst ms, 32 ≤ d.toNat
  | [], fst => by simp [dumpMembers]
  | (k, v) :: ms, fst => fun d hd => by
    rw [dumpMembers, List.mem_append, List.mem_append, List.mem_append, List.mem_cons,
      List.mem_cons] at hd
    rcases hd with ((hd | hd) | rfl | rfl | hd) | hd
    · exact all_ge (by cases fst <;> rfl) d hd
    · exact dumpStr_ge k d hd
    · decide
    · decide
    · exact dumps_ge v d hd
    · exact dumpMembers_ge ms false d hd
end

/-! ## Stuck texts -/

/-- No prefix of the text is finished, and no cut object glued onto it will ever finish it. -/
def Stuck (cs : List Char) : Prop :=
  ∀ p, p ≠ [] → p <+: cs → ∀ s, start.run p = some s → s.Inside

theorem Stuck.prefix {a b : List Char} (h : Stuck b) (hab : a <+: b) : Stuck a :=
  fun p hp hpa => h p hp (hpa.trans hab)

/-- A stuck text is no JSON text. -/
theorem Stuck.loads {cs : List Char} (h : Stuck cs) : loads cs = none := by
  unfold JsonText.loads
  cases hrun : start.run cs with
  | none => rfl
  | some s =>
    cases cs with
    | nil => obtain rfl := Option.some.inj hrun; rfl
    | cons c cs => exact (h _ (List.cons_ne_nil c cs) (List.prefix_refl _) s hrun).finish

theorem stuck_of_cut {ms : List (String × Json)} {q : List Char} (hq : q <+: dumps (.obj ms))
    (hne : q ≠ dumps (.obj ms)) : Stuck q := by
  intro p hp hpq s hs
  obtain ⟨r, hr⟩ := hpq.trans hq
  obtain ⟨t, ht, -, hin⟩ := run_cut hr hp
  obtain rfl := Option.some.inj (hs.symm.trans ht)
  apply hin
  rintro rfl
  rw [List.append_nil] at hr
  exact hne (hq.eq_of_length_le (hr ▸ hpq.length_le))

theorem Stuck.append {cs q : List Char} {ms : List (String × Json)} (h : Stuck cs) (hcs : cs ≠ [])
    (hms : Keyed ms) (hq : q <+: dumps (.obj ms)) : Stuck (cs ++ q) := by
  intro p hp hpq s hs
  rcases List.prefix_or_prefix_of_prefix hpq (List.prefix_append cs q) with hshort | ⟨q', rfl⟩
  · exact h p hp hshort s hs
  · have hq' : q' <+: q := (List.prefix_append_right_inj cs).mp hpq
    rw [State.run_append] at hs
    obtain ⟨u, hu, hs⟩ := Option.bind_eq_some_iff.mp hs
    exact run_glued (h cs hcs (List.prefix_refl cs) u hu) hms (hq'.trans hq) hs

end JsonText
