import GuruPractice.Transition.Run

/-!
# Blocks of statements and kill points

The body of an event handler, with its branches decided, is a *block*: a list of statements, each
of which changes the state or traps. The process may be killed between any two statements of a
block, and what survives is then read off from the state it had reached.

* `Block.exec b s` is the state after the block, `none` when a statement traps.
* `Block.reached b s` is the last state of the process: after the block, or where it trapped.
* `Block.killedAfter k b s` is the state of a process killed after `k` statements.

A part of the state that all statements but one leave alone is never caught half changed: at every
kill point it is the old or the new one (`Block.killedAfter_eq_or_eq`).

## Main definitions

* `Transition.Stmt`, `Transition.Block.exec`, `Transition.Block.reached`,
  `Transition.Block.killedAfter`, `Transition.Stmt.Keeps`.

## Main results

* `Transition.Block.reached_induction`, `Transition.Block.killedAfter_eq_ite`,
  `Transition.Block.killedAfter_eq_or_eq`.
-/

namespace GuruPractice.Transition

variable {σ δ : Type*}

/-- A statement: the state after it, `none` when it traps. -/
abbrev Stmt (σ : Type*) := σ → Option σ

/-- The statement leaves the part `f` of the state alone. -/
def Stmt.Keeps (f : σ → δ) (st : Stmt σ) : Prop :=
  ∀ s s', st s = some s' → f s' = f s

theorem Stmt.keeps_some {f : σ → δ} {g : σ → σ} (h : ∀ s, f (g s) = f s) :
    Stmt.Keeps f fun s => some (g s) :=
  fun s _ hs => Option.some.inj hs ▸ h s

theorem Stmt.keeps_map {ρ : Type*} {f : σ → δ} {o : σ → Option ρ} {g : σ → ρ → σ}
    (h : ∀ s x, f (g s x) = f s) : Stmt.Keeps f fun s => (o s).map (g s) := by
  intro s s' hs
  obtain ⟨x, -, rfl⟩ := Option.map_eq_some_iff.mp hs
  exact h s x

/-- A statement that leaves a part of the state alone leaves what is read off from it alone. -/
theorem Stmt.Keeps.comp {ρ : Type*} {f : σ → δ} {st : Stmt σ} (h : st.Keeps f) (g : δ → ρ) :
    Stmt.Keeps (fun s => g (f s)) st :=
  fun s s' hs => congrArg g (h s s' hs)

/-- A statement that traps unless `p` holds. -/
theorem Stmt.Keeps.ite {f : σ → δ} {st : Stmt σ} (h : st.Keeps f) (p : σ → Prop)
    [DecidablePred p] : Stmt.Keeps f fun s => if p s then st s else none := by
  intro s s' hs
  change (if p s then st s else none) = some s' at hs
  by_cases hp : p s
  · exact h s s' (by rwa [if_pos hp] at hs)
  · rw [if_neg hp] at hs
    exact absurd hs (by simp)

namespace Block

/-- The state after the statements of a block, `none` when one of them traps. -/
def exec (b : List (Stmt σ)) (s : σ) : Option σ := run (fun s st => st s) s b

/-- The last state of a process executing a block: after the block, or before the statement that
trapped. -/
def reached : List (Stmt σ) → σ → σ
  | [], s => s
  | st :: b, s => (st s).elim s (reached b)

/-- The state of a process killed after `k` statements of a block. -/
def killedAfter (k : ℕ) (b : List (Stmt σ)) (s : σ) : σ := reached (b.take k) s

@[simp] theorem exec_nil (s : σ) : exec [] s = some s := rfl

@[simp] theorem exec_cons (st : Stmt σ) (b : List (Stmt σ)) (s : σ) :
    exec (st :: b) s = (st s).bind (exec b) :=
  run_cons _ s st b

theorem exec_append (b c : List (Stmt σ)) (s : σ) : exec (b ++ c) s = (exec b s).bind (exec c) :=
  run_append _ s b c

@[simp] theorem reached_nil (s : σ) : reached [] s = s := rfl

theorem reached_cons (st : Stmt σ) (b : List (Stmt σ)) (s : σ) :
    reached (st :: b) s = (st s).elim s (reached b) := rfl

theorem reached_cons_of_eq_some {st : Stmt σ} {s s' : σ} (h : st s = some s')
    (b : List (Stmt σ)) : reached (st :: b) s = reached b s' := by
  rw [reached_cons, h, Option.elim_some]

@[simp] theorem killedAfter_zero (b : List (Stmt σ)) (s : σ) : killedAfter 0 b s = s := rfl

@[simp] theorem killedAfter_nil (k : ℕ) (s : σ) : killedAfter k [] s = s := by
  rw [killedAfter, List.take_nil, reached_nil]

theorem killedAfter_succ_cons (st : Stmt σ) (b : List (Stmt σ)) (k : ℕ) (s : σ) :
    killedAfter (k + 1) (st :: b) s = (st s).elim s (killedAfter k b) := rfl

/-- A process that is killed after the last statement has executed the block. -/
theorem killedAfter_of_length_le {b : List (Stmt σ)} {k : ℕ} (hk : b.length ≤ k) (s : σ) :
    killedAfter k b s = reached b s := by
  rw [killedAfter, List.take_of_length_le hk]

/-- A block that does not trap reaches its end. -/
theorem reached_of_exec {b : List (Stmt σ)} {s s' : σ} (h : exec b s = some s') :
    reached b s = s' := by
  induction b generalizing s with
  | nil => exact Option.some.inj h
  | cons st b ih =>
    rw [exec_cons, Option.bind_eq_some_iff] at h
    obtain ⟨s₁, hs₁, hb⟩ := h
    rw [reached_cons_of_eq_some hs₁, ih hb]

/-- What every statement of a block preserves holds wherever the process stops. -/
theorem reached_induction {I : σ → Prop} {b : List (Stmt σ)}
    (hb : ∀ st ∈ b, ∀ s s', I s → st s = some s' → I s') {s : σ} (hs : I s) :
    I (reached b s) := by
  induction b generalizing s with
  | nil => exact hs
  | cons st b ih =>
    rw [reached_cons]
    cases hst : st s with
    | none => exact hs
    | some s₁ =>
      exact ih (fun st' hst' => hb st' (List.mem_cons_of_mem _ hst'))
        (hb st List.mem_cons_self s s₁ hs hst)

/-- Statements that leave a part of the state alone leave it alone together. -/
theorem reached_keeps {f : σ → δ} {b : List (Stmt σ)} (hb : ∀ st ∈ b, st.Keeps f) (s : σ) :
    f (reached b s) = f s :=
  reached_induction (I := fun s' => f s' = f s)
    (fun st hst s₁ s₂ h₁ hs₁ => (hb st hst s₁ s₂ hs₁).trans h₁) rfl

theorem killedAfter_keeps {f : σ → δ} {b : List (Stmt σ)} (hb : ∀ st ∈ b, st.Keeps f) (s : σ)
    (k : ℕ) : f (killedAfter k b s) = f s :=
  reached_keeps (fun st hst => hb st (List.mem_of_mem_take hst)) s

theorem exec_keeps {f : σ → δ} {b : List (Stmt σ)} (hb : ∀ st ∈ b, st.Keeps f) {s s' : σ}
    (h : exec b s = some s') : f s' = f s := by
  rw [← reached_of_exec h, reached_keeps hb]

/-- **The write is the point of no return.** If a block runs to its end and only the statement `w`
touches the part `f` of the state, then that part is what it was before the block if the process is
killed before `w`, and what it is after the block if it is killed later. -/
theorem killedAfter_eq_ite {f : σ → δ} {pre post : List (Stmt σ)} {w : Stmt σ}
    (hpre : ∀ st ∈ pre, st.Keeps f) (hpost : ∀ st ∈ post, st.Keeps f) {s s' : σ}
    (h : exec (pre ++ w :: post) s = some s') (k : ℕ) :
    f (killedAfter k (pre ++ w :: post) s) = if pre.length < k then f s' else f s := by
  induction pre generalizing s k with
  | nil =>
    simp only [List.nil_append, exec_cons, Option.bind_eq_some_iff] at h
    obtain ⟨s₁, hw, hexec⟩ := h
    cases k with
    | zero => rfl
    | succ k =>
      rw [List.nil_append, killedAfter_succ_cons, hw, Option.elim_some, exec_keeps hpost hexec,
        List.length_nil, if_pos k.succ_pos]
      exact killedAfter_keeps hpost s₁ k
  | cons st pre ih =>
    simp only [List.cons_append, exec_cons, Option.bind_eq_some_iff] at h
    obtain ⟨s₁, hst, hexec⟩ := h
    cases k with
    | zero => rfl
    | succ k =>
      have hkeep : f s₁ = f s := hpre st List.mem_cons_self s s₁ hst
      rw [List.cons_append, killedAfter_succ_cons, hst, Option.elim_some, ← hkeep,
        ih (fun st' hst' => hpre st' (List.mem_cons_of_mem _ hst')) hexec k]
      simp only [List.length_cons, Nat.succ_lt_succ_iff]

/-- **One write is atomic.** If a block runs to its end and only the statement `w` touches the part
`f` of the state, then at every kill point that part is what it was before the block or what it is
after it. -/
theorem killedAfter_eq_or_eq {f : σ → δ} {pre post : List (Stmt σ)} {w : Stmt σ}
    (hpre : ∀ st ∈ pre, st.Keeps f) (hpost : ∀ st ∈ post, st.Keeps f) {s s' : σ}
    (h : exec (pre ++ w :: post) s = some s') (k : ℕ) :
    f (killedAfter k (pre ++ w :: post) s) = f s ∨
      f (killedAfter k (pre ++ w :: post) s) = f s' := by
  rw [killedAfter_eq_ite hpre hpost h k]
  split
  · exact Or.inr rfl
  · exact Or.inl rfl

end Block

end GuruPractice.Transition
