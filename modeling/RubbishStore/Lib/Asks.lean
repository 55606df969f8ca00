import RubbishStore.Lib.Prog

/- What a method may ask of its environment. `Asks I P m J` says that from a state in
   `I`, whatever the answers are, `m` performs only effects in `P`, and that where it
   ends well its result and its state are in `J`. There is one rule for each way to
   put a method together, as in a Hoare logic; `Asks.effects` reads the effects off a
   run under an environment. -/
namespace RubbishStore.Lib

namespace Prog
variable {E : Type} {R : E → Type} {α β : Type} {P : E → Prop}

/-- Whatever the answers, only effects in `P` are performed, and the result is in `J`. -/
def Asks (P : E → Prop) (J : α → Prop) : Prog E R α → Prop
  | .ret a => J a
  | .vis e k => P e ∧ ∀ r, (k r).Asks P J

theorem Asks.bind {J : α → Prop} {K : β → Prop} {p : Prog E R α} {f : α → Prog E R β} (hp : p.Asks P J)
    (hf : ∀ a, J a → (f a).Asks P K) : (p.bind f).Asks P K := by
  induction p with
  | ret a => exact hf a hp
  | vis e k ih => exact ⟨hp.1, fun r => ih r (hp.2 r)⟩

theorem Asks.mono {J K : α → Prop} {p : Prog E R α} (hp : p.Asks P J) (hJ : ∀ a, J a → K a) : p.Asks P K := by
  induction p with
  | ret a => exact hJ a hp
  | vis e k ih => exact ⟨hp.1, fun r => ih r (hp.2 r)⟩

theorem Asks.every {J : α → Prop} {p : Prog E R α} (hp : p.Asks P J) : p.Every P := by
  induction p with
  | ret a => trivial
  | vis e k ih => exact ⟨hp.1, fun r => ih r (hp.2 r)⟩

end Prog

namespace Method
variable {E : Type} {A : E → Type} {ε σ τ α β : Type} {I : σ → Prop} {P : E → Prop}

/-- Where the method ends well, its result and its state are in `J`. -/
def Well (J : α → σ → Prop) (r : Except ε α × σ) : Prop := ∀ a, r.1 = .ok a → J a r.2

def Asks (I : σ → Prop) (P : E → Prop) (m : Method E A ε σ α) (J : α → σ → Prop) : Prop :=
  ∀ s, I s → (tree m s).Asks P (Well J)

section
variable {J : α → σ → Prop} {K : β → σ → Prop}

theorem asks_pure {a : α} (h : ∀ s, I s → J a s) : Asks I P (pure a : Method E A ε σ α) J := by
  rintro s hs _ ⟨rfl⟩
  exact h s hs

theorem asks_throw (e : ε) : Asks I P (throw e : Method E A ε σ α) J := by
  rintro s - a h
  cases h

theorem asks_modify {f : σ → σ} {J : Unit → σ → Prop} (h : ∀ s, I s → J () (f s)) :
    Asks I P (modify f : Method E A ε σ Unit) J := fun s hs _ _ => h s hs

theorem asks_lift {x : Except ε α} (h : ∀ s a, I s → x = .ok a → J a s) : Asks I P (lift x : Method E A ε σ α) J :=
  fun s hs a ha => h s a hs ha

theorem asks_perform {e : E} {J : A e → σ → Prop} (he : P e) (h : ∀ a s, I s → J a s) :
    Asks I P (perform e : Method E A ε σ (A e)) J := fun s hs => ⟨he, fun _ a _ => h a s hs⟩

theorem asks_bind {m : Method E A ε σ α} {f : α → Method E A ε σ β} (hm : Asks I P m J)
    (hf : ∀ a, Asks (J a) P (f a) K) : Asks I P (m >>= f) K := by
  intro s hs
  rw [tree_bind]
  refine (hm s hs).bind fun r hr => ?_
  obtain ⟨_ | a, s'⟩ := r
  · intro b hb
    cases hb
  · exact hf a s' (hr a rfl)

/-- What is read is the state itself. -/
theorem asks_get_bind {f : σ → Method E A ε σ β} (hf : ∀ s, I s → Asks (fun s' => s' = s) P (f s) K) :
    Asks I P (get >>= f) K := fun s hs => hf s hs s rfl

theorem asks_ite {c : Prop} [Decidable c] {m n : Method E A ε σ α} (hm : c → Asks I P m J) (hn : ¬c → Asks I P n J) :
    Asks I P (if c then m else n) J := by
  split
  · next hc => exact hm hc
  · next hc => exact hn hc

theorem asks_on (focus : σ → τ) (back : σ → τ → σ) {m : Method E A ε τ α} {I' : τ → Prop} {J' : α → τ → Prop}
    {J : α × τ → σ → Prop} (hfocus : ∀ s, I s → I' (focus s)) (hm : Asks I' P m J')
    (hback : ∀ s a t, I s → J' a t → J (a, t) (back s t)) : Asks I P (on focus back m) J := by
  intro s hs
  rw [tree_on]
  refine (hm _ (hfocus s hs)).bind fun r hr => ?_
  rintro ⟨a, t⟩ ha
  obtain ⟨_ | a', t'⟩ := r
  · cases ha
  · cases ha
    exact hback s a _ hs (hr a rfl)

theorem Asks.mono {m : Method E A ε σ α} {I' : σ → Prop} {J' : α → σ → Prop} (h : Asks I P m J) (hI : ∀ s, I' s → I s)
    (hJ : ∀ a s, J a s → J' a s) : Asks I' P m J' :=
  fun s hs => (h s (hI s hs)).mono fun r hr a ha => hJ a r.2 (hr a ha)

/-- The effects of a run. -/
theorem Asks.effects {W : Type} {m : Method E A ε σ α} (h : Asks I P m J) (env : Env E A ε W) {s : σ} (hs : I s) (w : W) :
    ∀ e ∈ effects env m s w, P e := (h s hs).every.trace w

end

theorem keeps_on {K : σ → σ → Prop} {focus : σ → τ} {back : σ → τ → σ} (hback : ∀ s t, K s (back s t))
    (m : Method E A ε τ α) : Keeps K (on focus back m) := by
  intro W h s w
  rw [exec_on]
  exact hback s _

theorem keeps_lift {K : σ → σ → Prop} (hr : ∀ s, K s s) (x : Except ε α) : Keeps K (lift x : Method E A ε σ α) :=
  fun _ _ s _ => hr s

end Method

end RubbishStore.Lib
