import Mathlib.Algebra.BigOperators.Group.List.Basic
import Mathlib.Data.Nat.Prime.Basic
import Mathlib.Tactic.Common
import ResSim.Lib.Random

/-!
# Prime factors

Trial division by the small primes, then a probabilistic factorization of what is left. The
primality test may err, and the factors need not be prime; their product is the number all the
same.
-/

namespace ResSim

/-- What `primefactors` calls: `smallprimes`, `int(n ** .5)`, `isprime` and `pollard_brent`, whose
result is a greatest common divisor with its argument. The last two draw what they do. -/
structure Factorizer where
  smallprimes : List ℕ
  root : ℕ → ℕ
  isprime : ℕ → ℕ → Bool
  pollardBrent : ℕ → ℕ → ℕ
  pollardBrent_dvd : ∀ draw n, pollardBrent draw n ∣ n

namespace Factorizer

variable (F : Factorizer)

/-- With a primality test that does not err. -/
def exact : Factorizer where
  smallprimes := (List.range 1000).filter fun n => 2 ≤ n ∧ ∀ d ∈ List.range n, 2 ≤ d → n % d ≠ 0
  root := Nat.sqrt
  isprime := fun _ n => decide n.Prime
  pollardBrent := fun _ => Nat.minFac
  pollardBrent_dvd := fun _ => Nat.minFac_dvd

/-- State of the trial division. -/
structure Trial where
  factors : List ℕ
  n : ℕ
  limit : ℕ

/-- `while n % checker == 0`. -/
def divideOut (checker : ℕ) : ℕ → Trial → Option Trial
  | 0, _ => none
  | fuel + 1, s =>
    if s.n % checker = 0 then
      let s' : Trial := ⟨s.factors ++ [checker], s.n / checker, F.root (s.n / checker) + 1⟩
      if s'.limit < checker then some s' else divideOut checker fuel s'
    else some s

def trialLoop (fuel : ℕ) : List ℕ → Trial → Option Trial
  | [], s => some s
  | checker :: checkers, s =>
    if s.limit < checker then some s
    else do
      let s ← F.divideOut checker fuel s
      trialLoop fuel checkers s

/-- `while n > 1`, with the recursive call as an argument. -/
def splitLoop (factorsOf : Rnd → ℕ → Option (List ℕ)) :
    ℕ → Rnd → List ℕ → ℕ → Option (List ℕ)
  | 0, _, _, _ => none
  | fuel + 1, rnd, factors, n =>
    if 1 < n then
      if F.isprime (rnd 0) n then some (factors ++ [n])
      else do
        let factor := F.pollardBrent (rnd 1) n
        let more ← factorsOf rnd.next.next.half factor
        splitLoop factorsOf fuel rnd.next.next.next.half (factors ++ more) (n / factor)
    else some factors

/-- `none` when the passes or the recursion depth were used up. -/
def primefactors : ℕ → Rnd → ℕ → Option (List ℕ)
  | 0, _, _ => none
  | fuel + 1, rnd, n => do
    let s ← F.trialLoop fuel F.smallprimes ⟨[], n, F.root n + 1⟩
    if s.n < 2 then some s.factors
    else F.splitLoop (primefactors fuel) fuel rnd s.factors s.n

variable {F} {fuel n : ℕ} {rnd : Rnd} {factors l : List ℕ} {s s' : Trial}

lemma divideOut_prod {checker : ℕ} (h : F.divideOut checker fuel s = some s') :
    s'.factors.prod * s'.n = s.factors.prod * s.n := by
  induction fuel generalizing s with
  | zero => simp [divideOut] at h
  | succ fuel ih =>
    rw [divideOut] at h
    split at h
    · rename_i hmod
      have hprod : (s.factors ++ [checker]).prod * (s.n / checker) = s.factors.prod * s.n := by
        rw [List.prod_append, List.prod_singleton, mul_assoc,
          Nat.mul_div_cancel' (Nat.dvd_of_mod_eq_zero hmod)]
      dsimp only at h
      split at h
      · rw [← Option.some.inj h]
        exact hprod
      · exact (ih h).trans hprod
    · rw [Option.some.inj h]

lemma trialLoop_prod (h : F.trialLoop fuel l s = some s') :
    s'.factors.prod * s'.n = s.factors.prod * s.n := by
  induction l generalizing s with
  | nil => rw [Option.some.inj h]
  | cons checker l ih =>
    rw [trialLoop] at h
    split at h
    · rw [Option.some.inj h]
    · obtain ⟨s₁, h₁, h⟩ := Option.bind_eq_some_iff.mp h
      rw [ih h, divideOut_prod h₁]

lemma splitLoop_prod {factorsOf : Rnd → ℕ → Option (List ℕ)}
    (hrec : ∀ rnd n l, n ≠ 0 → factorsOf rnd n = some l → l.prod = n) (hn : n ≠ 0)
    (h : F.splitLoop factorsOf fuel rnd factors n = some l) : l.prod = factors.prod * n := by
  induction fuel generalizing rnd factors n with
  | zero => simp [splitLoop] at h
  | succ fuel ih =>
    rw [splitLoop] at h
    split at h
    · split at h
      · rw [← Option.some.inj h, List.prod_append, List.prod_singleton]
      · obtain ⟨more, hmore, h⟩ := Option.bind_eq_some_iff.mp h
        have hdvd := F.pollardBrent_dvd (rnd 1) n
        have hpos : F.pollardBrent (rnd 1) n ≠ 0 :=
          fun h0 => hn (Nat.eq_zero_of_zero_dvd (h0 ▸ hdvd))
        have hdiv : n / F.pollardBrent (rnd 1) n ≠ 0 :=
          Nat.pos_iff_ne_zero.mp (Nat.div_pos (Nat.le_of_dvd (by omega) hdvd) (by omega))
        rw [ih hdiv h, List.prod_append, hrec _ _ _ hpos hmore, mul_assoc,
          Nat.mul_div_cancel' hdvd]
    · obtain rfl : n = 1 := by omega
      rw [← Option.some.inj h, mul_one]

/-- Checkers that do not divide the number leave it as it is. -/
lemma trialLoop_eq_self (h : ∀ checker ∈ l, s.n % checker ≠ 0) :
    F.trialLoop (fuel + 1) l s = some s := by
  induction l with
  | nil => rfl
  | cons checker l ih =>
    obtain ⟨hchecker, hl⟩ := List.forall_mem_cons.mp h
    rw [trialLoop]
    split
    · rfl
    · rw [divideOut, if_neg hchecker]
      exact ih hl

/-- A prime that is not small is its own factor. -/
lemma primefactors_exact (hp : n.Prime) (h : 1000 ≤ n) :
    exact.primefactors (fuel + 2) rnd n = some [n] := by
  have htrial : exact.trialLoop (fuel + 1) exact.smallprimes ⟨[], n, exact.root n + 1⟩ =
      some ⟨[], n, exact.root n + 1⟩ := by
    refine trialLoop_eq_self fun checker hmem hmod => ?_
    simp only [exact, List.mem_filter, List.mem_range, decide_eq_true_eq] at hmem
    obtain ⟨hlt, htwo, _⟩ := hmem
    rcases hp.eq_one_or_self_of_dvd checker (Nat.dvd_of_mod_eq_zero hmod) with heq | heq <;> omega
  have hone := hp.one_lt
  have hprime : exact.isprime (rnd 0) n = true := decide_eq_true hp
  rw [primefactors, htrial]
  simp only [Option.bind_eq_bind, Option.bind_some, if_neg (show ¬ n < 2 by omega), splitLoop,
    if_pos hone, hprime, if_true, List.nil_append]

/-- The product of the factors is the number. -/
theorem primefactors_prod (hn : n ≠ 0) (h : F.primefactors fuel rnd n = some l) : l.prod = n := by
  induction fuel generalizing rnd n l with
  | zero => simp [primefactors] at h
  | succ fuel ih =>
    rw [primefactors] at h
    obtain ⟨s, hs, h⟩ := Option.bind_eq_some_iff.mp h
    have hprod : s.factors.prod * s.n = n := by
      rw [trialLoop_prod hs, List.prod_nil, one_mul]
    have hsn : s.n ≠ 0 := fun h0 => hn (by rw [← hprod, h0, Nat.mul_zero])
    split at h
    · obtain heq : s.n = 1 := by omega
      rw [← Option.some.inj h, ← hprod, heq, mul_one]
    · rw [splitLoop_prod (fun rnd n l hn h => ih hn h) hsn h, hprod]

end Factorizer

end ResSim
