/-!
# Requests that are sent again

A client that gets no answer sends its request once more, and does not know
whether the service had taken it the first time. That is harmless if an attempt
that is refused leaves no trace, and if a request that was taken finds nothing
left to do: then it makes no difference how often a request is sent, as long as
no other comes in between.
-/

namespace Wwsearch.Lib

/-- A service: an attempt at a request, the things that can go wrong with it
chosen, gives the next state and whether the request was taken. -/
structure Service (σ ρ ε : Type) where
  attempt : ρ → ε → σ → σ × Bool

namespace Service

variable {σ ρ ε : Type} (sys : Service σ ρ ε)

/-- All attempts at a request, one after the other. -/
def attempts (r : ρ) (es : List ε) (s : σ) : σ :=
  es.foldl (fun s e => (sys.attempt r e s).1) s

/-- The first attempt that is taken, and nothing if there is none. -/
def once (r : ρ) : List ε → σ → σ
  | [], s => s
  | e :: es, s =>
      if (sys.attempt r e s).2 then (sys.attempt r e s).1 else once r es s

/-- The states `I` and the requests `R` of a service that may be tried again. -/
structure Retryable (I : σ → Prop) (R : ρ → Prop) : Prop where
  keeps : ∀ {s}, I s → ∀ {r}, R r → ∀ e, I (sys.attempt r e s).1
  refused : ∀ {s r e}, (sys.attempt r e s).2 = false →
    (sys.attempt r e s).1 = s
  again : ∀ {s}, I s → ∀ {r}, R r → ∀ {e}, (sys.attempt r e s).2 = true →
    ∀ e', (sys.attempt r e' (sys.attempt r e s).1).1 = (sys.attempt r e s).1

namespace Retryable

variable {sys} {I : σ → Prop} {R : ρ → Prop}

/-- After the one that was taken no attempt changes anything. -/
theorem attempts_taken (h : sys.Retryable I R) {s : σ} (hs : I s) {r : ρ}
    (hr : R r) {e : ε} (htaken : (sys.attempt r e s).2 = true) (es : List ε) :
    sys.attempts r es (sys.attempt r e s).1 = (sys.attempt r e s).1 := by
  induction es with
  | nil => rfl
  | cons e' es ih =>
      rw [attempts, List.foldl_cons, h.again hs hr htaken e']
      exact ih

theorem attempts_eq_once (h : sys.Retryable I R) {s : σ} (hs : I s) {r : ρ}
    (hr : R r) (es : List ε) : sys.attempts r es s = sys.once r es s := by
  induction es with
  | nil => rfl
  | cons e es ih =>
      rw [once]
      split
      · next htaken => exact h.attempts_taken hs hr htaken es
      · next hrefused =>
          rw [attempts, List.foldl_cons, h.refused (eq_false_of_ne_true hrefused)]
          exact ih

theorem keeps_attempts (h : sys.Retryable I R) {r : ρ} (hr : R r)
    (es : List ε) : ∀ {s : σ}, I s → I (sys.attempts r es s) := by
  induction es with
  | nil => exact id
  | cons e es ih => exact fun hs => ih (h.keeps hs hr e)

/-- A run of requests, each with its attempts, is the run of each once. -/
theorem run_eq_once (h : sys.Retryable I R) (requests : List (ρ × List ε)) :
    ∀ {s : σ}, I s → (∀ x ∈ requests, R x.1) →
    requests.foldl (fun s x => sys.attempts x.1 x.2 s) s =
      requests.foldl (fun s x => sys.once x.1 x.2 s) s := by
  induction requests with
  | nil => exact fun _ _ => rfl
  | cons x requests ih =>
      intro s hs hrequests
      have hx := hrequests x List.mem_cons_self
      rw [List.foldl_cons, List.foldl_cons, ← h.attempts_eq_once hs hx]
      exact ih (h.keeps_attempts hx x.2 hs) fun y hy =>
        hrequests y (List.mem_cons_of_mem x hy)

end Retryable

end Service

end Wwsearch.Lib
