/-!
# How a call ends

A call returns, returns an error value, panics (an index, slice or subtraction out of range), or
never ends. `Meets R r o` says that `r` does neither of the last two, that it returns exactly when
`o` holds a value, and that the two values are related.

Sums are those of the release build, which wrap: so it is with the counters of the breaker and the
metrics, and with the limit of the gRPC receiver. The spool's are the one exception. They leave
`u64` only with 2^64 pushes or bytes, or with a file of the largest number; there a call stops as
it does with overflow checks, and no result speaks of what comes after.
-/

namespace ArchivAgent

inductive Stop (ε : Type) where
  | err (e : ε)
  | panic
  | diverge
  deriving DecidableEq, Repr

abbrev Run (ε α : Type) := Except (Stop ε) α

variable {ε ε' α β γ δ : Type}

/-- `?` on a result whose error type converts into the caller's. -/
def Run.mapErr (f : ε → ε') : Run ε α → Run ε' α
  | .ok a => .ok a
  | .error (.err e) => .error (.err (f e))
  | .error .panic => .error .panic
  | .error .diverge => .error .diverge

theorem Run.bind_ok {r : Run ε α} {f : α → Run ε γ} {c : γ} (h : (r >>= f) = .ok c) : ∃ a, r = .ok a ∧ f a = .ok c := by
  cases r with
  | error stop => cases h
  | ok a => exact ⟨a, rfl, h⟩

theorem Run.mapErr_ok {f : ε → ε'} {r : Run ε α} {a : α} (h : r.mapErr f = .ok a) : r = .ok a := by
  cases r with
  | ok b => cases h; rfl
  | error stop => cases stop <;> cases h

def Fails (r : Run ε α) : Prop := ∃ e, r = .error (.err e)

theorem Fails.ite {P : Prop} [Decidable P] {a b : Run ε α} (ha : P → Fails a) (hb : Fails b) :
    Fails (if P then a else b) := by
  split
  · rename_i h; exact ha h
  · exact hb

def Meets (R : β → α → Prop) (r : Run ε α) : Option β → Prop
  | some b => ∃ a, r = .ok a ∧ R b a
  | none => Fails r

theorem meets_ok {R : β → α → Prop} {a : α} {b : β} (h : R b a) : Meets R (.ok a : Run ε α) (some b) :=
  ⟨a, rfl, h⟩

theorem Fails.bind {r : Run ε α} (h : Fails r) (f : α → Run ε γ) : Fails (r >>= f) := by
  obtain ⟨e, rfl⟩ := h
  exact ⟨e, rfl⟩

theorem Fails.mapErr {r : Run ε α} (h : Fails r) (f : ε → ε') : Fails (r.mapErr f) := by
  obtain ⟨e, rfl⟩ := h
  exact ⟨f e, rfl⟩

theorem Meets.bind {R : β → α → Prop} {S : δ → γ → Prop} {r : Run ε α} {o : Option β}
    {f : α → Run ε γ} {g : β → Option δ} (first : Meets R r o)
    (rest : ∀ b a, o = some b → R b a → Meets S (f a) (g b)) : Meets S (r >>= f) (o.bind g) := by
  cases o with
  | some b =>
    obtain ⟨a, rfl, related⟩ := first
    exact rest b a rfl related
  | none => exact Fails.bind first f

theorem Meets.map {R : β → α → Prop} {S : δ → γ → Prop} {r : Run ε α} {o : Option β}
    {f : α → Run ε γ} {g : β → δ} (first : Meets R r o)
    (rest : ∀ b a, o = some b → R b a → ∃ c, f a = .ok c ∧ S (g b) c) : Meets S (r >>= f) (o.map g) := by
  rw [Option.map_eq_bind]
  exact first.bind rest

theorem Meets.andThen {R : β → α → Prop} {S : β → γ → Prop} {r : Run ε α} {o : Option β}
    {f : α → Run ε γ} (first : Meets R r o)
    (rest : ∀ b a, o = some b → R b a → ∃ c, f a = .ok c ∧ S b c) : Meets S (r >>= f) o := by
  have := first.map (g := id) rest
  rwa [Option.map_id_fun, id] at this

theorem Meets.of_ok {R : β → α → Prop} {r : Run ε α} {o : Option β} {a : α} (h : Meets R r o)
    (hr : r = .ok a) : ∃ b, o = some b ∧ R b a := by
  cases o with
  | some b =>
    obtain ⟨a', same, related⟩ := h
    rw [hr] at same
    cases same
    exact ⟨b, rfl, related⟩
  | none =>
    obtain ⟨e, he⟩ := h
    rw [hr] at he
    cases he

/-! ### Calls that end -/

/-- The call neither panics nor runs on, and what it returns, if it returns a value, is as said. -/
def Ends (post : α → Prop) : Run ε α → Prop
  | .ok a => post a
  | .error (.err _) => True
  | .error .panic => False
  | .error .diverge => False

theorem Ends.bind {post : α → Prop} {post' : γ → Prop} {r : Run ε α} {f : α → Run ε γ} (first : Ends post r)
    (rest : ∀ a, post a → Ends post' (f a)) : Ends post' (r >>= f) := by
  cases r with
  | ok a => exact rest a first
  | error stop => cases stop <;> exact first

theorem Ends.mapErr {post : α → Prop} {r : Run ε α} (h : Ends post r) (f : ε → ε') : Ends post (r.mapErr f) := by
  cases r with
  | ok a => exact h
  | error stop => cases stop <;> exact h

theorem Ends.imp {post post' : α → Prop} {r : Run ε α} (h : Ends post r) (weaker : ∀ a, post a → post' a) :
    Ends post' r := by
  cases r with
  | ok a => exact weaker a h
  | error stop => cases stop <;> exact h

theorem Ends.ite {post : α → Prop} {P : Prop} [Decidable P] {a b : Run ε α} (ha : P → Ends post a)
    (hb : ¬ P → Ends post b) : Ends post (if P then a else b) := by
  split
  · rename_i h; exact ha h
  · rename_i h; exact hb h

theorem Ends.returns {post : α → Prop} {r : Run Empty α} (h : Ends post r) : ∃ a, r = .ok a ∧ post a := by
  cases r with
  | ok a => exact ⟨a, rfl, h⟩
  | error stop =>
    cases stop with
    | err e => exact e.elim
    | panic => exact h.elim
    | diverge => exact h.elim

end ArchivAgent
