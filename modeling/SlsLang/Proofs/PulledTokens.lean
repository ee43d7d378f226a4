import Mathlib.Data.List.ReduceOption
import SlsLang.Proofs.LineLocality
import SlsLang.Proofs.PulledRecognition

namespace SlsLang

/-- How many tokens a step of a schedule asks for. -/
def Pull.count : Pull → Nat
  | token => 1
  | stream pulls => pulls

/-- What so many pulls on a fresh stream hand out, once `done` of the tokens have been taken. -/
def pulled (tokens : List Token) (done count : Nat) : List (Option Token) :=
  (List.range count).map fun k => tokens[done + k]?

section Pulled

variable (ts : List Token) (done count : Nat)

theorem pulled_succ : pulled ts done (count + 1) = ts[done]? :: pulled ts (done + 1) count := by
  rw [pulled, List.range_succ_eq_map, List.map_cons, List.map_map, pulled]
  simp [Function.comp_def, Nat.add_assoc, Nat.add_comm 1]

theorem pulled_of_length_le (h : ts.length ≤ done) :
    pulled ts done count = List.replicate count none := by
  have hnone : ∀ k, ts[done + k]? = none := fun k => List.getElem?_eq_none (by omega)
  simp [pulled, hnone]

theorem reduceOption_pulled : (pulled ts done count).reduceOption = (ts.drop done).take count := by
  induction count generalizing done with
  | zero => rfl
  | succ count ih =>
    rw [pulled_succ]
    by_cases h : done < ts.length
    · rw [List.getElem?_eq_getElem h, List.reduceOption_cons_of_some, ih,
        List.drop_eq_getElem_cons h, List.take_succ_cons]
    · rw [List.getElem?_eq_none (by omega), List.reduceOption_cons_of_none, ih,
        List.drop_eq_nil_of_le (by omega), List.drop_eq_nil_of_le (by omega)]
      simp

theorem eq_of_getElem?_pulled {k : Nat} {x : Option Token}
    (h : (pulled ts done count)[k]? = some x) : x = ts[done + k]? := by
  rw [pulled, List.getElem?_map] at h
  obtain ⟨i, hi, rfl⟩ := Option.map_eq_some_iff.mp h
  obtain ⟨_, rfl⟩ := List.getElem?_eq_some_iff.mp hi
  rw [List.getElem_range]

/-- Behind the end of the text a stream hands out nothing more. -/
theorem eq_none_of_pulled {init : List Token} {last : Token}
    (hinit : ∀ t ∈ init, t.isEndOfFile = false) {xs ys : List (Option Token)} {t : Token}
    (h : pulled (init ++ [last]) done count = xs ++ some t :: ys) (ht : t.isEndOfFile = true) :
    ∀ y ∈ ys, y = none := by
  have hend : init.length ≤ done + xs.length := by
    have hat : some t = (init ++ [last])[done + xs.length]? :=
      eq_of_getElem?_pulled _ _ count (by simp [h])
    by_contra hlt
    rw [List.getElem?_append_left (by omega)] at hat
    simp [hinit t (List.mem_of_getElem? hat.symm)] at ht
  intro y hy
  obtain ⟨k, hk⟩ := List.mem_iff_getElem?.mp hy
  have hat : y = (init ++ [last])[done + (xs.length + (k + 1))]? :=
    eq_of_getElem?_pulled _ _ count (by rw [h, List.getElem?_append_right (by omega)]; simp [hk])
  rw [hat, List.getElem?_eq_none]
  simp only [List.length_append, List.length_singleton]
  omega

end Pulled

namespace PulledLexer

/-- The tokens that some steps have handed out, but for the end of the text. -/
def handedOut (results : List (List (Option Token) × PulledLexer)) : List Token :=
  (results.flatMap fun result => result.1.reduceOption).filter (!·.isEndOfFile)

theorem handedOut_cons (result : List (Option Token) × PulledLexer)
    (results : List (List (Option Token) × PulledLexer)) :
    handedOut (result :: results) = handedOut [result] ++ handedOut results := by
  simp [handedOut]

theorem handedOut_append (results more : List (List (Option Token) × PulledLexer)) :
    handedOut (results ++ more) = handedOut results ++ handedOut more := by
  simp [handedOut]

/-- Of the readings `init` before the end of the text `last`, so many have been made: the others and
the end are ahead, and just what is wrong with the spelling of those made is recorded. -/
structure HasRead (init : List Reading) (last : Reading) (done : Nat) (p : PulledLexer) : Prop where
  bound : done ≤ init.length
  ahead : ∃ end_ : Reading, p.lexer.readings = init.drop done ++ [end_] ∧ end_.isLast = true ∧
    end_.token = last.token
  diagnostics : p.diagnostics = (init.take done).flatMap Reading.diagnostics

theorem getElem?_map_token_of_lt {init : List Reading} (last : Reading) {done : Nat}
    (h : done < init.length) :
    ((init ++ [last]).map Reading.token)[done]? = some init[done].token := by
  simp [List.getElem?_append_left, h]

theorem getElem?_map_token_length (init : List Reading) (last : Reading) :
    ((init ++ [last]).map Reading.token)[init.length]? = some last.token := by
  simp

namespace HasRead

variable {init : List Reading} {last : Reading} {p : PulledLexer} {done : Nat}

theorem next_of_lt (h : HasRead init last done p) (hlt : done < init.length) :
    p.next.1 = init[done] ∧ p.next.1.isLast = false ∧ HasRead init last (done + 1) p.next.2 := by
  obtain ⟨end_, hahead, hend, htoken⟩ := h.ahead
  have htake : init.take (done + 1) = init.take done ++ [init[done]] :=
    List.take_succ_eq_append_getElem hlt
  rw [List.drop_eq_getElem_cons hlt, List.cons_append, Lexer.readings_eq] at hahead
  cases hl : p.lexer.next.1.isLast with
  | true =>
    rw [if_pos hl] at hahead
    simp at hahead
  | false =>
    rw [if_neg (by simp [hl])] at hahead
    obtain ⟨hfirst, hrest⟩ := List.cons.inj hahead
    refine ⟨hfirst, hl, hlt, ⟨end_, hrest, hend, htoken⟩, ?_⟩
    rw [htake, List.flatMap_append, List.flatMap_singleton, ← h.diagnostics, ← hfirst]
    rfl

/-- At the end of the text every pull hands out the end again and records nothing. -/
theorem next_of_all (h : HasRead init last init.length p) :
    p.next.1.isLast = true ∧ p.next.1.token = last.token ∧
      HasRead init last init.length p.next.2 := by
  obtain ⟨end_, hahead, hend, htoken⟩ := h.ahead
  rw [List.drop_length, List.nil_append, Lexer.readings_eq] at hahead
  cases hl : p.lexer.next.1.isLast with
  | false =>
    rw [if_neg (by simp [hl])] at hahead
    have hmore := Lexer.readings_eq p.lexer.next.2
    rw [(List.cons.inj hahead).2] at hmore
    split at hmore <;> simp at hmore
  | true =>
    rw [if_pos hl] at hahead
    obtain rfl : p.lexer.next.1 = end_ := List.singleton_inj.mp hahead
    obtain ⟨hlast, hsame⟩ := Lexer.next_next_of_isLast hl
    have hagain : p.lexer.next.2.readings = [p.lexer.next.2.next.1] := by
      rw [Lexer.readings_eq, if_pos hlast]
    have hfaultless : p.lexer.next.1.diagnostics = [] := by
      rw [Reading.diagnostics, (Lexer.next_of_isLast hl).1]
      rfl
    refine ⟨hl, htoken, Nat.le_refl _, ⟨_, ?_, hlast, hsame.trans htoken⟩, ?_⟩
    · rw [List.drop_length, List.nil_append]
      exact hagain
    · rw [← h.diagnostics]
      exact (congrArg (p.diagnostics ++ ·) hfaultless).trans (List.append_nil _)

/-- A fresh stream goes on where the lexer stands. -/
theorem stream (h : HasRead init last done p) (pulls : Nat) :
    (p.stream pulls).1 = pulled ((init ++ [last]).map Reading.token) done pulls ∧
      HasRead init last (min (done + pulls) init.length) (p.stream pulls).2 := by
  induction pulls generalizing p done with
  | zero =>
    refine ⟨rfl, ?_⟩
    rwa [Nat.add_zero, Nat.min_eq_left h.bound]
  | succ pulls ih =>
    rw [pulled_succ, PulledLexer.stream]
    rcases Nat.lt_or_eq_of_le h.bound with hlt | rfl
    · obtain ⟨hfirst, hl, hnext⟩ := h.next_of_lt hlt
      obtain ⟨htokens, hrest⟩ := ih hnext
      rw [if_neg (by simp [hl]), getElem?_map_token_of_lt last hlt, ← hfirst, ← htokens]
      refine ⟨rfl, ?_⟩
      rwa [Nat.add_right_comm, Nat.add_assoc] at hrest
    · obtain ⟨hl, htoken, hnext⟩ := h.next_of_all
      rw [if_pos hl, getElem?_map_token_length, pulled_of_length_le _ _ _ (by simp), ← htoken]
      refine ⟨rfl, ?_⟩
      rwa [Nat.min_eq_right (Nat.le_add_right _ _)]

/-- A single token is what one pull on a fresh stream gives. -/
theorem pull (h : HasRead init last done p) (step : Pull) :
    (p.pull step).1 = pulled ((init ++ [last]).map Reading.token) done step.count ∧
      HasRead init last (min (done + step.count) init.length) (p.pull step).2 := by
  cases step with
  | stream pulls => exact h.stream pulls
  | token =>
    have hone : p.pull .token = p.stream 1 := by
      simp only [PulledLexer.pull, PulledLexer.stream]
      split <;> rfl
    rw [hone]
    exact h.stream 1

/-- What a step hands out is what is due, and the lexer is as far on as that. -/
theorem handedOut_pull (h : HasRead init last done p) (hinit : ∀ r ∈ init, r.isLast = false)
    (hlast : last.isLast = true) (step : Pull) :
    handedOut [p.pull step] = ((init.map Reading.token).drop done).take step.count ∧
      HasRead init last (done + (handedOut [p.pull step]).length) (p.pull step).2 := by
  obtain ⟨hout, hread⟩ := h.pull step
  have hkept : ∀ t ∈ ((init.map Reading.token).drop done).take step.count,
      (!t.isEndOfFile) = true := by
    intro t ht
    obtain ⟨r, hr, rfl⟩ := List.mem_map.mp (List.mem_of_mem_drop (List.mem_of_mem_take ht))
    have hr' : r.token.isEndOfFile = false := hinit r hr
    simp [hr']
  have hdropped : ∀ n, ([last.token].take n).filter (!·.isEndOfFile) = [] := by
    intro n
    rw [List.filter_eq_nil_iff]
    intro t ht
    obtain rfl := List.mem_singleton.mp (List.mem_of_mem_take ht)
    have hlast' : last.token.isEndOfFile = true := hlast
    simp [hlast']
  have hhanded : handedOut [p.pull step] =
      ((init.map Reading.token).drop done).take step.count := by
    rw [handedOut, List.flatMap_singleton, hout, reduceOption_pulled, List.map_append,
      List.map_singleton, List.drop_append_of_le_length (by simpa using h.bound), List.take_append,
      List.filter_append, List.filter_eq_self.mpr hkept, hdropped, List.append_nil]
  refine ⟨hhanded, ?_⟩
  have hlength : done + (handedOut [p.pull step]).length = min (done + step.count) init.length := by
    have := h.bound
    simp only [hhanded, List.length_take, List.length_drop, List.length_map]
    omega
  rwa [hlength]

/-- Whatever the steps before have handed out, the next one goes on behind it. -/
theorem run (h : HasRead init last done p) (hinit : ∀ r ∈ init, r.isLast = false)
    (hlast : last.isLast = true) {steps : List Pull}
    {earlier later : List (List (Option Token) × PulledLexer)} {out : List (Option Token)}
    {q : PulledLexer} (hrun : p.run steps = earlier ++ (out, q) :: later) :
    ∃ step r, steps[earlier.length]? = some step ∧ r.pull step = (out, q) ∧
      HasRead init last (done + (handedOut earlier).length) r ∧
      handedOut earlier = ((init.map Reading.token).drop done).take (handedOut earlier).length := by
  induction steps generalizing p done earlier with
  | nil => simp [PulledLexer.run] at hrun
  | cons step steps ih =>
    rw [PulledLexer.run] at hrun
    cases earlier with
    | nil => exact ⟨step, p, rfl, (List.cons.inj hrun).1, h, rfl⟩
    | cons result earlier =>
      obtain ⟨rfl, hrest⟩ := List.cons.inj hrun
      obtain ⟨hhanded, hread⟩ := h.handedOut_pull hinit hlast step
      obtain ⟨step', r, hstep, hresult, hr, htokens⟩ := ih hread hrest
      rw [handedOut_cons, List.length_append, ← Nat.add_assoc]
      refine ⟨step', r, hstep, hresult, hr, ?_⟩
      rw [List.take_add, List.drop_drop, ← htokens, List.append_left_inj, hhanded, List.length_take]
      exact List.take_eq_take_min

end HasRead

theorem length_run (p : PulledLexer) (steps : List Pull) : (p.run steps).length = steps.length := by
  induction steps generalizing p with
  | nil => rfl
  | cons step steps ih => rw [run, List.length_cons, ih, List.length_cons]

/-- However a lexer is used, it hands out the tokens of its text one after the other, none of them
twice. What is recorded after a step is what is wrong with the spelling of those handed out. Once
they are all handed out, every further token and the first of every further stream is the end of the
text, and nothing is recorded any more. A stream is over once it has handed out the end. -/
theorem run_hands_out (file text : String) (steps : List Pull) :
    let results := (start file text).run steps
    ∃ init last, tokenize file text = init ++ [last] ∧ last.isEndOfFile = true ∧
      (∀ t ∈ init, t.isEndOfFile = false) ∧ results.length = steps.length ∧
      ∀ earlier out p later, results = earlier ++ (out, p) :: later →
        let before := handedOut earlier
        let now := handedOut (earlier ++ [(out, p)])
        ∃ step, steps[earlier.length]? = some step ∧
          out = pulled (tokenize file text) before.length step.count ∧
          now = init.take (before.length + step.count) ∧
          p.diagnostics =
            ((Lexer.start file text).readings.take now.length).flatMap Reading.diagnostics ∧
          (before = init → p.diagnostics = spellingFaults file text ∧
            out = (some last :: List.replicate (step.count - 1) none).take step.count) ∧
          ∀ xs t ys, out = xs ++ some t :: ys → t.isEndOfFile = true → ∀ y ∈ ys, y = none := by
  intro results
  obtain ⟨init, last, hreadings, hlast, hinit⟩ := exists_init_of_reads (reads_start file text)
  have htokens : tokenize file text = (init ++ [last]).map Reading.token := by
    rw [tokenize, hreadings]
  have hfaultless : last.diagnostics = [] := by
    have hstands := (stands_of_reads (reads_start file text) hreadings).1
    rw [Reading.diagnostics, hstands.faultless_of_isLast hlast]
    rfl
  have hstart : HasRead init last 0 (start file text) :=
    ⟨Nat.zero_le _, ⟨last, hreadings, hlast, rfl⟩, rfl⟩
  refine ⟨init.map Reading.token, last.token, by rw [htokens, List.map_append]; rfl, hlast,
    List.forall_mem_map.mpr hinit, length_run _ _, ?_⟩
  intro earlier out p later hresults before now
  obtain ⟨step, q, hstep, hpull, hread, hbefore⟩ := hstart.run hinit hlast hresults
  rw [Nat.zero_add] at hread
  rw [List.drop_zero] at hbefore
  obtain ⟨hhanded, hnext⟩ := hread.handedOut_pull hinit hlast step
  have hout : out = pulled ((init ++ [last]).map Reading.token) before.length step.count := by
    rw [← (hread.pull step).1, hpull]
  rw [hpull] at hhanded hnext
  have hnow : now = before ++ handedOut [(out, p)] := handedOut_append earlier _
  rw [← List.length_append, ← hnow] at hnext
  refine ⟨step, hstep, by rw [htokens]; exact hout, ?_, ?_, fun hall => ⟨?_, ?_⟩, ?_⟩
  · rw [hnow, List.take_add, ← hhanded, ← hbefore]
  · rw [hnext.diagnostics, hreadings, List.take_append_of_le_length hnext.bound]
  · have hlength : init.length ≤ now.length := by
      rw [hnow, hall, List.length_append, List.length_map]
      exact Nat.le_add_right _ _
    rw [hnext.diagnostics, List.take_of_length_le hlength, spellingFaults, hreadings,
      List.flatMap_append, List.flatMap_singleton, hfaultless, List.append_nil]
  · have hlength : before.length = init.length := by rw [hall, List.length_map]
    rw [hout, hlength]
    cases step.count with
    | zero => rfl
    | succ count =>
      rw [pulled_succ, getElem?_map_token_length, pulled_of_length_le _ _ _ (by simp)]
      simp
  · intro xs t ys hsplit ht
    rw [hout, List.map_append] at hsplit
    exact eq_none_of_pulled _ _ (List.forall_mem_map.mpr hinit) hsplit ht

end PulledLexer

end SlsLang
