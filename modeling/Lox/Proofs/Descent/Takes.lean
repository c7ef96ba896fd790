import Lox.Proofs.Descent.Basic

/-!
# Lox — the tokens that a call takes

What a call does is said about the tokens from its position up to the end token. Whatever was
passed over before them and whatever stands after the end token have no influence on it, and
neither have the errors before it.

* **`Descent.Takes`** — a call that ends, with its result, the tokens that it leaves and the errors
  that it records.
* **`Descent.Takes.bind`** — calls in a row: the second one goes on where the first one stops.
-/

namespace Lox.Descent

/-! ## Ends -/

namespace EndsWith

variable {α β : Type} {p q r : Descent} {a : α} {b : β}

/-- A call has only one end. -/
theorem unique {call : Nat → Call α} {a' : α} {q' : Descent} (h : EndsWith call p a q)
    (h' : EndsWith call p a' q') : a = a' ∧ q = q' := by
  obtain ⟨N, hN⟩ := h
  obtain ⟨N', hN'⟩ := h'
  have heq := (hN (max N N') (Nat.le_max_left N N')).symm.trans (hN' _ (Nat.le_max_right N N'))
  exact Prod.mk.inj (Option.some.inj heq)

theorem of_forall {call : Nat → Call α} (h : ∀ bound, call bound p = some (a, q)) :
    EndsWith call p a q :=
  ⟨0, fun bound _ => h bound⟩

theorem pure (a : α) : EndsWith (fun _ => Pure.pure a) p a p := of_forall fun _ => rfl

theorem modify (f : Descent → Descent) :
    EndsWith (fun _ => (modify f : Call PUnit)) p PUnit.unit (f p) :=
  of_forall fun _ => rfl

/-- What ends within a call that is nested once more ends with a bound one higher. -/
theorem of_succ {call : Nat → Call α} (h : EndsWith (fun bound => call (bound + 1)) p a q) :
    EndsWith call p a q := by
  obtain ⟨N, hN⟩ := h
  refine ⟨N + 1, fun bound hbound => ?_⟩
  obtain ⟨n, rfl⟩ : ∃ n, bound = n + 1 := ⟨bound - 1, by omega⟩
  exact hN n (by omega)

theorem bind {m : Nat → Call α} {f : Nat → α → Call β} (h : EndsWith m p a q)
    (hf : EndsWith (fun bound => f bound a) q b r) :
    EndsWith (fun bound => m bound >>= f bound) p b r := by
  obtain ⟨N, hN⟩ := h
  obtain ⟨N', hN'⟩ := hf
  refine ⟨max N N', fun bound hbound => ?_⟩
  show ((m bound p).bind fun r => f bound r.1 r.2) = _
  rw [hN bound (by omega), Option.bind_some]
  exact hN' bound (by omega)

end EndsWith

/-! ## Tokens -/

/-- With `ts` in front of it, the call ends with the result `a`. It has passed over tokens until
`rest` is left and recorded the errors `new`. As many blocks are open as before. -/
def Takes {α : Type} (call : Nat → Call α) (depth : Nat) (ts rest : List Token) (a : α)
    (new : List SyntaxError) : Prop :=
  ∃ v, v ++ rest = ts ∧ ∀ before after errs,
    EndsWith call ⟨before ++ (ts ++ after), before.length, depth, errs⟩ a
      ⟨before ++ (ts ++ after), before.length + v.length, depth, errs ++ new⟩

namespace Takes

variable {α β : Type} {depth : Nat} {ts ts' rest : List Token} {a : α} {b : β}
  {new new' : List SyntaxError} {e : SyntaxError}

theorem isSuffix {call : Nat → Call α} (h : Takes call depth ts rest a new) : rest <:+ ts := by
  obtain ⟨v, hv, -⟩ := h
  exact ⟨v, hv⟩

theorem of_succ {call : Nat → Call α}
    (h : Takes (fun bound => call (bound + 1)) depth ts rest a new) :
    Takes call depth ts rest a new := by
  obtain ⟨v, hv, hcall⟩ := h
  exact ⟨v, hv, fun before after errs => (hcall before after errs).of_succ⟩

/-- A call that neither passes over tokens nor records errors. -/
theorem stay {call : Nat → Call α} (h : ∀ bound before after errs,
    call bound ⟨before ++ (ts ++ after), before.length, depth, errs⟩
      = some (a, ⟨before ++ (ts ++ after), before.length, depth, errs⟩)) :
    Takes call depth ts ts a [] :=
  ⟨[], rfl, fun before after errs =>
    .of_forall fun bound => by simpa using h bound before after errs⟩

theorem pure (a : α) : Takes (fun _ => Pure.pure a) depth ts ts a [] := stay fun _ _ _ _ => rfl

theorem bind {m : Nat → Call α} {f : Nat → α → Call β} (h : Takes m depth ts ts' a new)
    (hf : Takes (fun bound => f bound a) depth ts' rest b new') :
    Takes (fun bound => m bound >>= f bound) depth ts rest b (new ++ new') := by
  obtain ⟨v, rfl, hm⟩ := h
  obtain ⟨w, rfl, hf⟩ := hf
  refine ⟨v ++ w, by simp, fun before after errs => ?_⟩
  have hnext := hf (before ++ v) after (errs ++ new)
  simp only [List.append_assoc, List.length_append] at hnext
  have hfirst := hm before after errs
  simp only [List.append_assoc] at hfirst
  simpa [Nat.add_assoc] using hfirst.bind hnext

theorem ite_pos {c : Prop} [Decidable c] {m m' : Nat → Call α} (hc : c)
    (h : Takes m depth ts rest a new) :
    Takes (fun bound => if c then m bound else m' bound) depth ts rest a new := by
  simpa only [if_pos hc] using h

theorem ite_neg {c : Prop} [Decidable c] {m m' : Nat → Call α} (hc : ¬ c)
    (h : Takes m' depth ts rest a new) :
    Takes (fun bound => if c then m bound else m' bound) depth ts rest a new := by
  simpa only [if_neg hc] using h

/-! ## Attempts -/

theorem ok (a : α) : Takes (fun _ => (Pure.pure a : Attempt α).run) depth ts ts (.ok a) [] :=
  stay fun _ _ _ _ => rfl

theorem throw (e : SyntaxError) :
    Takes (fun _ => (MonadExcept.throw e : Attempt α).run) depth ts ts (.error e) [] :=
  stay fun _ _ _ _ => rfl

theorem lift_bind {m : Nat → Call α} {f : Nat → α → Attempt β} {r : Except SyntaxError β}
    (h : Takes m depth ts ts' a new)
    (hf : Takes (fun bound => (f bound a).run) depth ts' rest r new') :
    Takes (fun bound => (liftM (m bound) >>= f bound : Attempt β).run) depth ts rest r
      (new ++ new') := by
  have hrun (bound : Nat) : (liftM (m bound) >>= f bound : Attempt β).run
      = m bound >>= fun x => (f bound x).run := ExceptT.run_bind_lift (m bound) (f bound)
  simp only [hrun]
  exact h.bind hf

theorem ok_bind {m : Nat → Attempt α} {f : Nat → α → Attempt β} {r : Except SyntaxError β}
    (h : Takes (fun bound => (m bound).run) depth ts ts' (.ok a) new)
    (hf : Takes (fun bound => (f bound a).run) depth ts' rest r new') :
    Takes (fun bound => (m bound >>= f bound).run) depth ts rest r (new ++ new') := by
  simp only [ExceptT.run_bind]
  exact h.bind hf

/-- What comes last often records no error. -/
theorem ok_bind_quiet {m : Nat → Attempt α} {f : Nat → α → Attempt β} {r : Except SyntaxError β}
    (h : Takes (fun bound => (m bound).run) depth ts ts' (.ok a) new)
    (hf : Takes (fun bound => (f bound a).run) depth ts' rest r []) :
    Takes (fun bound => (m bound >>= f bound).run) depth ts rest r new := by
  rw [← List.append_nil new]
  exact h.ok_bind hf

/-- Nothing is done after an error. -/
theorem error_bind {m : Nat → Attempt α} {f : Nat → α → Attempt β}
    (h : Takes (fun bound => (m bound).run) depth ts rest (.error e) new) :
    Takes (fun bound => (m bound >>= f bound).run) depth ts rest (.error e) new := by
  simp only [ExceptT.run_bind]
  rw [← List.append_nil new]
  exact h.bind (.pure _)

end Takes

/-! ## Reading tokens -/

variable {depth : Nat} {t : Token} {rest : List Token} {k : Token.Kind}

theorem takes_peek : Takes (fun _ => peek) depth (t :: rest) (t :: rest) t [] :=
  .stay fun _ before after errs => by simp [peek]

theorem advance_eq {p : Descent} (h : p.tokens[p.current]? = some t) :
    advance p = some (t, if t.kind = .eof then p else { p with current := p.current + 1 }) := by
  have hpeek : peek p = some (t, p) := by rw [peek, h]; rfl
  show ((peek p).bind _) = _
  rw [hpeek, Option.bind_some]
  by_cases heof : t.kind = .eof
  · simp only [heof, ne_eq, not_true_eq_false, if_false, if_true]
    rfl
  · simp only [heof, ne_eq, not_false_eq_true, if_true, if_false]
    rfl

theorem takes_advance (h : t.kind ≠ .eof) :
    Takes (fun _ => advance) depth (t :: rest) rest t [] := by
  refine ⟨[t], rfl, fun before after errs => .of_forall fun _ => ?_⟩
  rw [advance_eq (t := t) (by simp), if_neg h]
  simp

/-- The end token is not passed over. -/
theorem takes_advance_eof (h : t.kind = .eof) :
    Takes (fun _ => advance) depth (t :: rest) (t :: rest) t [] :=
  .stay fun _ before after errs => by rw [advance_eq (t := t) (by simp), if_pos h]

theorem takes_consume (x : Lexeme) (h : k ≠ .eof) :
    Takes (fun _ => consume? k) depth (⟨x, k⟩ :: rest) rest (some ⟨x, k⟩) [] :=
  takes_peek.bind (.ite_pos rfl ((takes_advance h).bind (.pure _)))

theorem takes_consume_none (hk : t.kind ≠ k) :
    Takes (fun _ => consume? k) depth (t :: rest) (t :: rest) none [] :=
  takes_peek.bind (.ite_neg hk (.pure _))

theorem takes_expect (x : Lexeme) (h : k ≠ .eof) (cause : SyntaxError.Cause) :
    Takes (fun _ => (expect k cause).run) depth (⟨x, k⟩ :: rest) rest (.ok ⟨x, k⟩) [] :=
  (takes_consume x h).lift_bind (.ok _)

theorem takes_expect_error (hk : t.kind ≠ k) (cause : SyntaxError.Cause) :
    Takes (fun _ => (expect k cause).run) depth (t :: rest) (t :: rest)
      (.error ⟨cause, t.toLexeme⟩) [] :=
  (takes_consume_none hk).lift_bind (takes_peek.lift_bind (.throw _))

theorem takes_record (e : SyntaxError) : Takes (fun _ => record e) depth rest rest () [e] :=
  ⟨[], rfl, fun _ _ _ => .of_forall fun _ => rfl⟩

end Lox.Descent
