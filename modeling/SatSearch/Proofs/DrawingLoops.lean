import SatSearch.Proofs.BoundedDraws
import SatSearch.Proofs.RandomFormulas

/-!
# The loops of drawing a clause

Two loops draw the variables of a clause: one rejects numbers of the source until one is fair, the
other draws from the range until three different results have come up. Here they are taken as they
are, without a bound on their turns: a run is a finite derivation, and a loop that goes on forever
has none. For every range of at least three numbers both loops have exactly one run from every state
of the source, and it gives what the searches of a period give.
-/

namespace SatSearch.Source

/-- A run of the loop that rejects numbers until one may be scaled to the range. It starts at a
source, takes a number of 32-bit numbers from it, and ends with a result and the source after it. -/
inductive Draws (top : Nat) : Source → (taken : Nat) → (result : Nat) → Source → Prop where
  | accept {s : Source} (fair : isFair top s.next.1 = true) :
      Draws top s 1 (scale top s.next.1) s.next.2
  | reject {s t : Source} {n v : Nat} (unfair : isFair top s.next.1 = false)
      (tail : Draws top s.next.2 n v t) : Draws top s (n + 1) v t

/-- A run of the loop that draws from the range until there are as many different results as a
clause has literals. A result that came up before is dropped, any other is kept behind the earlier
ones. -/
inductive Gathers (top : Nat) : List Nat → Source → (taken : Nat) → (results : List Nat) → Source →
    Prop where
  | enough {vs : List Nat} {s : Source} (full : clauseWidth ≤ vs.length) : Gathers top vs s 0 vs s
  | again {vs ws : List Nat} {s t u : Source} {n m v : Nat} (short : vs.length < clauseWidth)
      (draw : Draws top s n v t) (old : v ∈ vs) (tail : Gathers top vs t m ws u) :
      Gathers top vs s (n + m) ws u
  | keep {vs ws : List Nat} {s t u : Source} {n m v : Nat} (short : vs.length < clauseWidth)
      (draw : Draws top s n v t) (new : v ∉ vs) (tail : Gathers top (vs ++ [v]) t m ws u) :
      Gathers top vs s (n + m) ws u

variable {top : Nat}

theorem next_eq (s : Source) : s.next = (s.advance.raw, s.advance) := rfl

theorem Draws.unique {s t t' : Source} {n n' v v' : Nat} (h : Draws top s n v t)
    (h' : Draws top s n' v' t') : n = n' ∧ v = v' ∧ t = t' := by
  induction h generalizing n' with
  | accept fair =>
    cases h' with
    | accept => exact ⟨rfl, rfl, rfl⟩
    | reject unfair => cases fair.symm.trans unfair
  | reject unfair _ ih =>
    cases h' with
    | accept fair => cases fair.symm.trans unfair
    | reject _ tail =>
      obtain ⟨rfl, rfl, rfl⟩ := ih tail
      exact ⟨rfl, rfl, rfl⟩

theorem Gathers.unique {vs ws ws' : List Nat} {s t t' : Source} {n n' : Nat}
    (h : Gathers top vs s n ws t) (h' : Gathers top vs s n' ws' t') :
    n = n' ∧ ws = ws' ∧ t = t' := by
  induction h generalizing n' with
  | enough full =>
    cases h' with
    | enough => exact ⟨rfl, rfl, rfl⟩
    | again short => exact absurd full (Nat.not_le_of_lt short)
    | keep short => exact absurd full (Nat.not_le_of_lt short)
  | again short draw old _ ih =>
    cases h' with
    | enough full => exact absurd full (Nat.not_le_of_lt short)
    | again _ draw' _ tail =>
      obtain ⟨rfl, rfl, rfl⟩ := draw.unique draw'
      obtain ⟨rfl, rfl, rfl⟩ := ih tail
      exact ⟨rfl, rfl, rfl⟩
    | keep _ draw' new =>
      obtain ⟨-, rfl, -⟩ := draw.unique draw'
      exact absurd old new
  | keep short draw new _ ih =>
    cases h' with
    | enough full => exact absurd full (Nat.not_le_of_lt short)
    | again _ draw' old =>
      obtain ⟨-, rfl, -⟩ := draw.unique draw'
      exact absurd old new
    | keep _ draw' _ tail =>
      obtain ⟨rfl, rfl, rfl⟩ := draw.unique draw'
      obtain ⟨rfl, rfl, rfl⟩ := ih tail
      exact ⟨rfl, rfl, rfl⟩

theorem draws_of_acceptsAt {s : Source} {k : Nat} (h : s.AcceptsAt (isFair top) k) :
    Draws top s (k + 1) (scale top (s.after (k + 1)).raw) (s.after (k + 1)) := by
  induction k generalizing s with
  | zero =>
    rw [after_one]
    exact .accept (acceptsAt_zero_iff.1 h)
  | succ k ih =>
    obtain ⟨hreject, hlater⟩ := acceptsAt_succ_iff.1 h
    rw [← after_advance]
    exact .reject hreject (ih hlater)

theorem exists_acceptsAt_of_fresh {s t : Source} {taken : List Nat} {v : Nat}
    (h : s.fresh top taken = .ok (v, t)) : ∃ k < period, t = s.after (k + 1) ∧
      v = scale top t.raw ∧
      s.AcceptsAt (fun raw => isFair top raw && !taken.contains (scale top raw)) k := by
  cases hfind : s.findInPeriod fun raw => isFair top raw && !taken.contains (scale top raw) with
  | error fault => simp only [fresh, hfind, bind, Except.bind, reduceCtorEq] at h
  | ok found =>
    simp only [fresh, hfind, bind, Except.bind, pure, Except.pure, Except.ok.injEq,
      Prod.mk.injEq] at h
    obtain ⟨rfl, rfl⟩ := h
    obtain ⟨k, hk, haccepts, hrest, hraw⟩ := acceptsAt_of_findInPeriod hfind
    exact ⟨k, hk, hrest, by rw [hraw, hrest], haccepts⟩

theorem upTo_eq_fresh_nil (s : Source) : s.upTo top = s.fresh top [] := by
  simp [upTo, fresh]

/-- What is found in a period is the result of a run of the rejecting loop. -/
theorem exists_draws_of_upTo {s t : Source} {v : Nat} (h : s.upTo top = .ok (v, t)) :
    ∃ n ≤ period, t = s.after n ∧ Draws top s n v t := by
  rw [upTo_eq_fresh_nil] at h
  obtain ⟨k, hk, rfl, rfl, haccepts⟩ := exists_acceptsAt_of_fresh h
  exact ⟨k + 1, hk, rfl, draws_of_acceptsAt (by simpa using haccepts)⟩

/-- A number that is not fair only makes the draw longer with which a run starts. -/
theorem Gathers.reject {vs ws : List Nat} {s t : Source} {n : Nat}
    (short : vs.length < clauseWidth) (unfair : isFair top s.next.1 = false)
    (h : Gathers top vs s.next.2 n ws t) : Gathers top vs s (n + 1) ws t := by
  cases h with
  | enough full => exact absurd full (Nat.not_le_of_lt short)
  | again _ draw old tail =>
    rw [Nat.add_right_comm]
    exact .again short (.reject unfair draw) old tail
  | keep _ draw new tail =>
    rw [Nat.add_right_comm]
    exact .keep short (.reject unfair draw) new tail

/-- The first number that is fair and gives a new result ends a part of a run, after which that
result is kept. -/
theorem Gathers.of_acceptsAt {vs ws : List Nat} {s t : Source} {k n : Nat}
    (short : vs.length < clauseWidth)
    (h : s.AcceptsAt (fun raw => isFair top raw && !vs.contains (scale top raw)) k)
    (tail : Gathers top (vs ++ [scale top (s.after (k + 1)).raw]) (s.after (k + 1)) n ws t) :
    Gathers top vs s (k + 1 + n) ws t := by
  induction k generalizing s with
  | zero =>
    obtain ⟨hfair, hnew⟩ := Bool.and_eq_true_iff.1 (acceptsAt_zero_iff.1 h)
    have hnew : scale top s.next.1 ∉ vs := by simpa [next_eq] using hnew
    rw [after_one] at tail
    exact .keep short (.accept hfair) hnew tail
  | succ k ih =>
    obtain ⟨hreject, hlater⟩ := acceptsAt_succ_iff.1 h
    rw [← after_advance] at tail
    have hrest := ih hlater tail
    rw [Nat.add_right_comm (k + 1) 1 n]
    cases hfair : isFair top s.next.1 with
    | false => exact hrest.reject short hfair
    | true =>
      have hold : scale top s.next.1 ∈ vs := by
        have hold := (Bool.and_eq_false_iff.1 hreject).resolve_left (ne_false_of_eq_true hfair)
        simpa [next_eq] using hold
      rw [Nat.add_comm (k + 1 + n) 1]
      exact .again short (.accept hfair) hold hrest

/-- What distinct variables are found in a period each is the result of a run of the gathering
loop. -/
theorem exists_gathers_of_distinct {s t : Source} {vs taken : List Nat} {count : Nat}
    (h : s.distinct top taken count = .ok (vs, t)) (hcount : taken.length + count = clauseWidth) :
    ∃ n ≤ count * period, t = s.after n ∧ Gathers top taken s n (taken ++ vs) t := by
  induction count generalizing s taken vs with
  | zero =>
    cases h
    refine ⟨0, Nat.zero_le _, by simp [after], ?_⟩
    rw [List.append_nil]
    exact .enough (Nat.le_of_eq hcount.symm)
  | succ count ih =>
    unfold distinct at h
    cases hfresh : s.fresh top taken with
    | error fault => simp [hfresh, bind, Except.bind] at h
    | ok drawn =>
      obtain ⟨v, s₁⟩ := drawn
      obtain ⟨k, hk, rfl, rfl, haccepts⟩ := exists_acceptsAt_of_fresh hfresh
      cases hlater : (s.after (k + 1)).distinct top
          (taken ++ [scale top (s.after (k + 1)).raw]) count with
      | error fault => simp [hfresh, hlater, bind, Except.bind] at h
      | ok drawn =>
        obtain ⟨ws, s₂⟩ := drawn
        simp only [hfresh, hlater, bind, Except.bind, pure, Except.pure, Except.ok.injEq,
          Prod.mk.injEq] at h
        obtain ⟨rfl, rfl⟩ := h
        obtain ⟨n, hn, hafter, hgathers⟩ := ih hlater (by simp; omega)
        rw [List.append_assoc, List.singleton_append] at hgathers
        refine ⟨k + 1 + n, by rw [Nat.succ_mul]; omega, by rw [hafter, after_after], ?_⟩
        exact .of_acceptsAt (by omega) haccepts hgathers

/-- Drawing a clause ends, from every state of the source and for every range of at least three
numbers: each of the two loops has a run, which is its only one, and the clause is then made of the
variables that were gathered, unless one of them is too large for a literal. -/
theorem drawing_ends (h : 3 ≤ top) (htop : top ≤ maxTop) (s : Source) :
    (∃ n ≤ period, ∃ v, s.upTo top = .ok (v, s.after n) ∧
      ∀ n' v' t, Draws top s n' v' t ↔ n' = n ∧ v' = v ∧ t = s.after n) ∧
    ∃ n ≤ 3 * period, ∃ vs, s.distinct top [] clauseWidth = .ok (vs, s.after n) ∧
      (∀ n' vs' t, Gathers top [] s n' vs' t ↔ n' = n ∧ vs' = vs ∧ t = s.after n) ∧
      ((∀ v ∈ vs, v ≤ maxVar) →
        ∃ c, s.clause top = .ok (c, s.after (n + 3)) ∧ c.map Literal.var = vs) ∧
      ((∃ v ∈ vs, maxVar < v) → s.clause top = .error .variableOverflow) := by
  constructor
  · obtain ⟨v, rest, hv, -⟩ := exists_upTo (Nat.zero_lt_of_lt h) htop s
    obtain ⟨n, hn, rfl, hdraws⟩ := exists_draws_of_upTo hv
    refine ⟨n, hn, v, hv, fun n' v' t => ⟨fun hrun => hrun.unique hdraws, ?_⟩⟩
    rintro ⟨rfl, rfl, rfl⟩
    exact hdraws
  · obtain ⟨vs, rest, hvs, hdistinct⟩ := exists_three_distinct h htop s
    obtain ⟨n, hn, rfl, hgathers⟩ := exists_gathers_of_distinct hvs rfl
    refine ⟨n, hn, vs, hvs, fun n' vs' t => ⟨fun hrun => hrun.unique hgathers, ?_⟩, fun hle => ?_,
      clause_of_lt hvs hdistinct⟩
    · rintro ⟨rfl, rfl, rfl⟩
      exact hgathers
    · obtain ⟨c, hc, hvars⟩ := exists_clause_of_le hvs hdistinct hle
      rw [after_after] at hc
      exact ⟨c, hc, hvars⟩

/-- Eleven numbers are taken until three different variables have come up. -/
theorem drawing_ends_eleven_numbers :
    3 ≤ 3 ∧ 3 ≤ maxTop ∧
      (∃ n ≤ 3 * period, Gathers 3 [] ⟨2⟩ n [1, 2, 3] (after ⟨2⟩ 11)) ∧
      ∃ c rest, clause 3 ⟨2⟩ = .ok (c, rest) ∧ c.map Literal.var = [1, 2, 3] := by
  have h : 3 ≤ 3 := Nat.le_refl 3
  have htop : 3 ≤ maxTop := by decide
  have heval : distinct 3 [] clauseWidth ⟨2⟩ = .ok ([1, 2, 3], after ⟨2⟩ 11) := by decide +kernel
  obtain ⟨-, n, hn, vs, hvs, hruns, hclause, -⟩ := drawing_ends h htop ⟨2⟩
  obtain ⟨hvars, hrest⟩ := Prod.mk.inj (Except.ok.inj (hvs.symm.trans heval))
  obtain ⟨c, hc, hcvars⟩ := hclause (by rw [hvars]; decide)
  have hrun := (hruns n [1, 2, 3] (after ⟨2⟩ 11)).2 ⟨rfl, hvars.symm, hrest.symm⟩
  exact ⟨h, htop, ⟨n, hn, hrun⟩, c, _, hc, hcvars.trans hvars⟩

end SatSearch.Source
