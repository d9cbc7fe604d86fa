import StackCompiler.Grammar.Rules

/-!
# Laws of grammar rules

How the parts that rules are put together from run on pending tokens. `bind_eq_ok` takes a rule
that has succeeded apart, the lemmas on `expect` and `accept?` say which token was there, and
`bind_of_ok` puts the run of a rule together again.
-/

set_option autoImplicit false
set_option relaxedAutoImplicit false

namespace StackCompiler.Grammar

variable {α β : Type}

/-! ### Sequencing -/

@[simp] theorem pure_apply (a : α) (pending : List Token) :
    (pure a : Rule α) pending = .ok (a, pending) :=
  rfl

@[simp] theorem get_apply (pending : List Token) :
    (get : Rule (List Token)) pending = .ok (pending, pending) :=
  rfl

@[simp] theorem refuse_apply (refusal : Refusal) (pending : List Token) :
    (refuse refusal : Rule α) pending = .error ⟨refusal, pending⟩ :=
  rfl

theorem bind_of_ok {rule : Rule α} {next : α → Rule β} {pending middle : List Token} {a : α}
    (h : rule pending = .ok (a, middle)) : (rule >>= next) pending = next a middle := by
  simp only [bind, StateT.bind, h, Except.bind]

theorem bind_of_error {rule : Rule α} {next : α → Rule β} {pending : List Token} {stop : Stop}
    (h : rule pending = .error stop) : (rule >>= next) pending = .error stop := by
  simp only [bind, StateT.bind, h, Except.bind]

@[simp] theorem get_bind_apply (next : List Token → Rule β) (pending : List Token) :
    ((get : Rule (List Token)) >>= next) pending = next pending pending :=
  rfl

theorem bind_eq_ok {rule : Rule α} {next : α → Rule β} {pending rest : List Token} {b : β} :
    (rule >>= next) pending = .ok (b, rest) ↔
      ∃ a middle, rule pending = .ok (a, middle) ∧ next a middle = .ok (b, rest) := by
  constructor
  · intro h
    cases hrule : rule pending with
    | error stop => simp [bind_of_error hrule] at h
    | ok result =>
      rw [bind_of_ok hrule] at h
      exact ⟨result.1, result.2, rfl, h⟩
  · rintro ⟨a, middle, hrule, hnext⟩
    rwa [bind_of_ok hrule]

theorem pure_eq_ok {a b : α} {pending rest : List Token} :
    (pure a : Rule α) pending = .ok (b, rest) ↔ a = b ∧ pending = rest := by
  simp

/-! ### Single tokens -/

@[simp] theorem kindOfNext_cons (token : Token) (rest : List Token) :
    kindOfNext (token :: rest) = token.kind :=
  rfl

theorem accept?_cons_of_mem {member : TokenKind → Bool} {token : Token}
    (h : member token.kind = true) (rest : List Token) :
    accept? member (token :: rest) = .ok (some token, rest) := by
  simp [accept?, h]

/-- A class that the next token is not in takes nothing; the end of the tokens is in no class. -/
theorem accept?_of_not_mem {member : TokenKind → Bool} {pending : List Token}
    (h : member (kindOfNext pending) = false) : accept? member pending = .ok (none, pending) := by
  cases pending with
  | nil => rfl
  | cons token rest => simp_all [accept?]

theorem accept?_eq_some {member : TokenKind → Bool} {pending rest : List Token} {token : Token} :
    accept? member pending = .ok (some token, rest) ↔
      pending = token :: rest ∧ member token.kind = true := by
  cases pending with
  | nil => simp [accept?]
  | cons next later =>
    by_cases h : member next.kind = true
    · simp only [accept?, h, if_true, Except.ok.injEq, Prod.mk.injEq, Option.some.injEq,
        List.cons.injEq, iff_self_and]
      rintro ⟨rfl, -⟩
      exact h
    · simp only [accept?, h, Bool.false_eq_true, if_false, Except.ok.injEq, Prod.mk.injEq,
        reduceCtorEq, false_and, List.cons.injEq, false_iff, not_and, Bool.not_eq_true]
      rintro ⟨rfl, -⟩
      simpa using h

theorem eq_of_accept?_eq_none {member : TokenKind → Bool} {pending rest : List Token}
    (h : accept? member pending = .ok (none, rest)) :
    rest = pending ∧ (pending = [] ∨ member (kindOfNext pending) = false) := by
  cases pending with
  | nil =>
    simp only [accept?, Except.ok.injEq, Prod.mk.injEq, true_and] at h
    exact ⟨h.symm, .inl rfl⟩
  | cons next later =>
    by_cases hmember : member next.kind = true
    · simp [accept?, hmember] at h
    · simp only [accept?, hmember, Bool.false_eq_true, if_false, Except.ok.injEq, Prod.mk.injEq,
        true_and] at h
      exact ⟨h.symm, .inr (by simpa using hmember)⟩

theorem expect_cons {kind : TokenKind} {token : Token} (h : token.kind = kind)
    (rest : List Token) : expect kind (token :: rest) = .ok (token, rest) := by
  unfold expect
  rw [bind_of_ok (accept?_cons_of_mem (by simp [h]) rest)]
  rfl

theorem expect_eq_ok {kind : TokenKind} {pending rest : List Token} {token : Token} :
    expect kind pending = .ok (token, rest) ↔ pending = token :: rest ∧ token.kind = kind := by
  constructor
  · intro h
    obtain ⟨found, middle, hfound, hnext⟩ := bind_eq_ok.mp h
    cases found with
    | none => simp at hnext
    | some found =>
      simp only [pure_apply, Except.ok.injEq, Prod.mk.injEq] at hnext
      obtain ⟨rfl, rfl⟩ := hnext
      simpa using accept?_eq_some.mp hfound
  · rintro ⟨rfl, hkind⟩
    exact expect_cons hkind rest

end StackCompiler.Grammar
