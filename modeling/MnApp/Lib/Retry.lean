/-
# `MnApp.Lib.Retry` — a call that is repeated until it need not wait

A non-blocking library call answers that it is done, that it failed, or that
it wants to wait for its descriptor first.  The caller waits and calls again:

    while (true) { call;  done → break;  want → wait;  else → fail }

While it waits, others go on: the state in which the call is repeated is not
the one in which it was made first.  A `Round` is one turn of the loop, with
what the call answers, what the others do meanwhile and how the wait ends.

    retry step s rounds    how the loop ends
    calls step s rounds    the states in which the call is made
    used rounds            what the others do until the end

The two rules: the loop is a run of the others' actions up to its end
(`exec_used`), and what those actions keep holds at every call and at the end
(`retry_invariant`).  Nothing here is about a particular library.
-/
import MnApp.Lib.Run

namespace Retry

open Run

/-- What the call wants to wait for. -/
inductive Want where
  | read | write
deriving DecidableEq, Repr

/-- What the call answers. -/
inductive Reply (ρ : Type) where
  | ok (r : ρ)
  | want (w : Want)
  | error
deriving DecidableEq, Repr

/-- One turn of the loop. -/
structure Round (α ρ : Type) where
  reply : Reply ρ
  /-- what the others do during the wait -/
  others : List α
  /-- what the wait returns -/
  wait : Int
deriving DecidableEq, Repr

/-- How the loop ends, or that it waits still. -/
inductive End (σ ρ : Type) where
  | done (s : σ) (r : ρ)
  | waitFailed (s : σ) (res : Int)
  | failed (s : σ)
  | waiting (s : σ)

def End.state {σ ρ : Type} : End σ ρ → σ
  | .done s _ | .waitFailed s _ | .failed s | .waiting s => s

section
variable {σ α ρ : Type} (step : σ → α → Option σ)

/-- The loop; `none` when the others cannot do what the rounds say. -/
def retry : σ → List (Round α ρ) → Option (End σ ρ)
  | s, [] => some (.waiting s)
  | s, r :: rs =>
      match r.reply with
      | .ok x => some (.done s x)
      | .error => some (.failed s)
      | .want _ =>
          (exec step s r.others).bind fun s' =>
            if r.wait = 0 then retry s' rs else some (.waitFailed s' r.wait)

/-- The states in which the call is made. -/
def calls : σ → List (Round α ρ) → List σ
  | _, [] => []
  | s, r :: rs =>
      match r.reply with
      | .ok _ | .error => [s]
      | .want _ =>
          s :: (exec step s r.others).elim [] fun s' => if r.wait = 0 then calls s' rs else []

/-- What the others do until the loop ends. -/
def used : List (Round α ρ) → List α
  | [] => []
  | r :: rs =>
      match r.reply with
      | .ok _ | .error => []
      | .want _ => r.others ++ if r.wait = 0 then used rs else []

variable {step}

theorem exec_used {s : σ} {rs : List (Round α ρ)} {e : End σ ρ}
    (h : retry step s rs = some e) : exec step s (used rs) = some e.state := by
  induction rs generalizing s with
  | nil =>
      cases h
      rfl
  | cons r rs ih =>
      rw [retry] at h
      rw [used]
      cases hr : r.reply with
      | ok x =>
          rw [hr] at h
          cases h
          rfl
      | error =>
          rw [hr] at h
          cases h
          rfl
      | want w =>
          rw [hr] at h
          obtain ⟨s', hs', hrest⟩ := Option.bind_eq_some_iff.mp h
          dsimp only
          rw [exec_append, hs', Option.bind_some]
          by_cases hw : r.wait = 0
          · rw [if_pos hw] at hrest ⊢
            exact ih hrest
          · rw [if_neg hw] at hrest ⊢
            cases hrest
            rfl

/-- What the others keep holds whenever the call is made, and at the end. -/
theorem retry_invariant {I : σ → Prop} {D : α → Prop}
    (keep : ∀ s a s', I s → D a → step s a = some s' → I s') {s : σ} {rs : List (Round α ρ)}
    (hs : I s) (hD : ∀ r ∈ rs, ∀ a ∈ r.others, D a) :
    (∀ u ∈ calls step s rs, I u) ∧ ∀ e, retry step s rs = some e → I e.state := by
  induction rs generalizing s with
  | nil =>
      refine ⟨fun u hu => absurd hu List.not_mem_nil, fun e he => ?_⟩
      cases he
      exact hs
  | cons r rs ih =>
      rw [calls, retry]
      cases r.reply with
      | ok x =>
          refine ⟨fun u hu => List.mem_singleton.mp hu ▸ hs, fun e he => ?_⟩
          cases he
          exact hs
      | error =>
          refine ⟨fun u hu => List.mem_singleton.mp hu ▸ hs, fun e he => ?_⟩
          cases he
          exact hs
      | want w =>
          dsimp only
          cases hex : exec step s r.others with
          | none => exact ⟨fun u hu => List.mem_singleton.mp hu ▸ hs, fun e he => nomatch he⟩
          | some s' =>
              rw [Option.elim_some, Option.bind_some]
              have hs' : I s' := exec_invariant (C := fun _ a => D a) keep hs
                (meets_of_stateless (hD r List.mem_cons_self) fun _ _ ha => ha) hex
              by_cases hw : r.wait = 0
              · rw [if_pos hw, if_pos hw]
                obtain ⟨hcalls, hend⟩ := ih hs' fun q hq => hD q (List.mem_cons_of_mem r hq)
                refine ⟨fun u hu => ?_, hend⟩
                rcases List.mem_cons.mp hu with rfl | hu
                · exact hs
                · exact hcalls u hu
              · rw [if_neg hw, if_neg hw]
                refine ⟨fun u hu => List.mem_singleton.mp hu ▸ hs, fun e he => ?_⟩
                cases he
                exact hs'

/-- A loop that is done was done by the reply of one of its rounds, to a call in
the state it is done in. -/
theorem done_reply {s u : σ} {x : ρ} {rs : List (Round α ρ)}
    (h : retry step s rs = some (.done u x)) :
    u ∈ calls step s rs ∧ ∃ r ∈ rs, r.reply = .ok x := by
  induction rs generalizing s with
  | nil => cases h
  | cons r rs ih =>
      rw [retry] at h
      rw [calls]
      cases hr : r.reply with
      | ok y =>
          rw [hr] at h
          cases h
          exact ⟨List.mem_singleton_self _, r, List.mem_cons_self, hr⟩
      | error =>
          rw [hr] at h
          cases h
      | want w =>
          rw [hr] at h
          dsimp only at h ⊢
          obtain ⟨s', hs', hrest⟩ := Option.bind_eq_some_iff.mp h
          by_cases hw : r.wait = 0
          · rw [if_pos hw] at hrest
            obtain ⟨hu, q, hq, hqx⟩ := ih hrest
            rw [hs', Option.elim_some, if_pos hw]
            exact ⟨List.mem_cons_of_mem s hu, q, List.mem_cons_of_mem r hq, hqx⟩
          · rw [if_neg hw] at hrest
            cases hrest

theorem waitFailed_ne_zero {s u : σ} {res : Int} {rs : List (Round α ρ)}
    (h : retry step s rs = some (.waitFailed u res)) : res ≠ 0 := by
  induction rs generalizing s with
  | nil => cases h
  | cons r rs ih =>
      rw [retry] at h
      cases hr : r.reply with
      | ok y =>
          rw [hr] at h
          cases h
      | error =>
          rw [hr] at h
          cases h
      | want w =>
          rw [hr] at h
          obtain ⟨s', -, hrest⟩ := Option.bind_eq_some_iff.mp h
          by_cases hw : r.wait = 0
          · rw [if_pos hw] at hrest
            exact ih hrest
          · rw [if_neg hw] at hrest
            cases hrest
            exact hw

end

end Retry
