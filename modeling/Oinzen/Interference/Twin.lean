import Oinzen.Interference.Rely

/-!
# Executions under interference, and pairs of them

`Runs rely p s a t`: between the actions of `p` the environment may act within `rely`, and `p` ends with
`a` in `t`. `Simulates` compares the executions of two programs during which the environment does the same.
-/

namespace Interference

open Relation

namespace Prog

variable {σ ι : Type} {A : ι → Type} {α β α' β' : Type} {rely : σ → σ → Prop}

inductive Runs (rely : σ → σ → Prop) : Prog σ A α → σ → α → σ → Prop
  | ret {a s t} : ReflTransGen rely s t → Runs rely (ret a) s a t
  | act {u k s m a t} : ReflTransGen rely s m → Runs rely (k m) (u m) a t → Runs rely (act u k) s a t
  | ask {i k s m b a t} : ReflTransGen rely s m → Runs rely (k b) m a t → Runs rely (ask i k) s a t

theorem Runs.before {p : Prog σ A α} {s m t : σ} {a : α} (e : ReflTransGen rely s m) (r : Runs rely p m a t) :
    Runs rely p s a t := by
  cases r with
  | ret e' => exact .ret (e.trans e')
  | act e' r => exact .act (e.trans e') r
  | ask e' r => exact .ask (e.trans e') r

theorem runs_bind {p : Prog σ A α} {f : α → Prog σ A β} {s t : σ} {b : β} :
    Runs rely (p >>= f) s b t ↔ ∃ a m, Runs rely p s a m ∧ Runs rely (f a) m b t := by
  induction p generalizing s with
  | ret a =>
      refine ⟨fun r => ⟨a, s, .ret .refl, r⟩, ?_⟩
      rintro ⟨_, m, hp, r⟩
      cases hp with
      | ret e => exact r.before e
  | act u k ih =>
      constructor
      · intro r
        cases r with
        | act e r =>
            obtain ⟨a, m, hp, r⟩ := (ih _).mp r
            exact ⟨a, m, .act e hp, r⟩
      · rintro ⟨a, m, hp, r⟩
        cases hp with
        | act e hp => exact .act e ((ih _).mpr ⟨a, m, hp, r⟩)
  | ask i k ih =>
      constructor
      · intro r
        cases r with
        | ask e r =>
            obtain ⟨a, m, hp, r⟩ := (ih _).mp r
            exact ⟨a, m, .ask e hp, r⟩
      · rintro ⟨a, m, hp, r⟩
        cases hp with
        | ask e hp => exact .ask e ((ih _).mpr ⟨a, m, hp, r⟩)

theorem runs_run (oracle : Nat → ∀ i, A i) (n : Nat) (p : Prog σ A α) (s : σ) :
    Runs rely p s (run oracle n p s).1 (run oracle n p s).2 := by
  induction p generalizing n s with
  | ret a => exact .ret .refl
  | act u k ih => exact .act .refl (ih s n (u s))
  | ask i k ih => exact .ask .refl (ih _ (n + 1) s)

def beside (rely : σ → σ → Prop) : Setting σ where
  rely := rely
  guar _ _ := True
  meets _ _ := True

section

variable {p : Prog σ A α} {Q : α → σ → Prop} {R : σ → σ → Prop} {s t u : σ} {a : α}

section

variable {P : σ → Prop}

theorem beside_get {f : σ → β} {k : β → Prog σ A α} (stable : Stable (beside rely).rely P) (hs : P s)
    (next : ∀ t, P t → Safe (beside rely) (k (f t)) Q t) : Safe (beside rely) (get f >>= k) Q s :=
  safe_get stable hs (fun _ _ => trivial) next

theorem beside_get_answer {oracle : Nat → ∀ i, A i} {n : Nat} {f : σ → β} {k : β → Prog σ A α}
    (stable : Stable (beside rely).rely P) (hs : P s)
    (next : ∀ t, P t → Safe (beside rely) ((k (f t)).answer oracle n) Q t) :
    Safe (beside rely) ((get f >>= k).answer oracle n) Q s :=
  safe_act stable hs fun t ht _ => ⟨trivial, next t ht⟩

theorem beside_modify {f : σ → σ} {k : Unit → Prog σ A α} (stable : Stable (beside rely).rely P) (hs : P s)
    (next : ∀ t, P t → Safe (beside rely) (k ()) Q (f t)) : Safe (beside rely) (modify f >>= k) Q s :=
  safe_modify stable hs (fun _ _ => trivial) fun t ht _ => next t ht

end

theorem Safe.runs (h : Safe (beside rely) p Q s) (r : Runs rely p s a t) : Q a t := by
  induction r with
  | ret e => exact h _ e
  | act e _ ih => exact ih (h _ e trivial).2
  | ask e _ ih => exact ih (h _ e _)

theorem safe_of_runs (h : ∀ a t, Runs rely p s a t → Q a t) : Safe (beside rely) p Q s := by
  induction p generalizing s with
  | ret a => exact fun t e => h a t (.ret e)
  | act u k ih => exact fun t e _ => ⟨trivial, ih t fun a v r => h a v (.act e r)⟩
  | ask i k ih => exact fun t e b => ih b fun a v r => h a v (.ask e r)

def Matched (rely : σ → σ → Prop) (R : σ → σ → Prop) : Prop :=
  ∀ ⦃s u t⦄, R s u → rely s t → ∃ v, rely u v ∧ R t v

theorem Matched.run (h : Matched rely R) (hR : R s u) (e : ReflTransGen rely s t) :
    ∃ v, ReflTransGen rely u v ∧ R t v := by
  induction e with
  | refl => exact ⟨u, .refl, hR⟩
  | tail _ e ih =>
      obtain ⟨v, ev, hv⟩ := ih
      obtain ⟨v', e', hv'⟩ := h hv e
      exact ⟨v', ev.tail e', hv'⟩

end

def Simulates (rely : σ → σ → Prop) (p : Prog σ A α) (q : Prog σ A α') (Q : α → σ → α' → σ → Prop)
    (s u : σ) : Prop :=
  ∀ a t, Runs rely p s a t → ∃ b v, Runs rely q u b v ∧ Q a t b v

section

variable {p : Prog σ A α} {q : Prog σ A α'} {P : α → σ → α' → σ → Prop} {Q : β → σ → β' → σ → Prop}
  {R : σ → σ → Prop} {s u : σ}

theorem Simulates.mono {P' : α → σ → α' → σ → Prop} (h : Simulates rely p q P s u)
    (imp : ∀ a t b v, P a t b v → P' a t b v) : Simulates rely p q P' s u := by
  intro a t r
  obtain ⟨b, v, hq, hP⟩ := h a t r
  exact ⟨b, v, hq, imp a t b v hP⟩

theorem Simulates.seq {f : α → Prog σ A β} {g : α' → Prog σ A β'} (h : Simulates rely p q P s u)
    (next : ∀ a t b v, P a t b v → Simulates rely (f a) (g b) Q t v) :
    Simulates rely (p >>= f) (q >>= g) Q s u := by
  intro c t r
  obtain ⟨a, m, hp, r⟩ := runs_bind.mp r
  obtain ⟨b, v, hq, hP⟩ := h a m hp
  obtain ⟨d, x, hg, hQ⟩ := next a m b v hP c t r
  exact ⟨d, x, runs_bind.mpr ⟨b, v, hq, hg⟩, hQ⟩

theorem simulates_ret {a : α} {b : α'} (matched : Matched rely R) (hR : R s u)
    (last : ∀ t v, R t v → P a t b v) :
    Simulates rely (ret a : Prog σ A α) (ret b : Prog σ A α') P s u := by
  intro _ t r
  cases r with
  | ret e =>
      obtain ⟨v, ev, hv⟩ := matched.run hR e
      exact ⟨b, v, .ret ev, last t v hv⟩

theorem simulates_act {f g : σ → σ} {k : σ → Prog σ A α} {l : σ → Prog σ A α'} (matched : Matched rely R)
    (hR : R s u) (next : ∀ t v, R t v → Simulates rely (k t) (l v) P (f t) (g v)) :
    Simulates rely (act f k) (act g l) P s u := by
  intro a t r
  cases r with
  | act e r =>
      obtain ⟨v, ev, hv⟩ := matched.run hR e
      obtain ⟨b, x, r', hP⟩ := next _ v hv a t r
      exact ⟨b, x, .act ev r', hP⟩

theorem simulates_get {γ : Type} {f g : σ → γ} {k : γ → Prog σ A α} {l : γ → Prog σ A α'}
    (matched : Matched rely R) (hR : R s u)
    (next : ∀ t v, R t v → Simulates rely (k (f t)) (l (g v)) P t v) :
    Simulates rely (get f >>= k) (get g >>= l) P s u :=
  simulates_act matched hR next

theorem simulates_modify {f g : σ → σ} {k : Unit → Prog σ A α} {l : Unit → Prog σ A α'}
    (matched : Matched rely R) (hR : R s u)
    (next : ∀ t v, R t v → Simulates rely (k ()) (l ()) P (f t) (g v)) :
    Simulates rely (modify f >>= k) (modify g >>= l) P s u :=
  simulates_act matched hR next

theorem simulates_left {f : σ → σ} {k : σ → Prog σ A α} (matched : Matched rely R) (hR : R s u)
    (next : ∀ t v, R t v → Simulates rely (k t) q P (f t) v) : Simulates rely (act f k) q P s u := by
  intro a t r
  cases r with
  | act e r =>
      obtain ⟨v, ev, hv⟩ := matched.run hR e
      obtain ⟨b, x, r', hP⟩ := next _ v hv a t r
      exact ⟨b, x, r'.before ev, hP⟩

theorem simulates_get_left {γ : Type} {f : σ → γ} {k : γ → Prog σ A α} (matched : Matched rely R) (hR : R s u)
    (next : ∀ t v, R t v → Simulates rely (k (f t)) q P t v) : Simulates rely (get f >>= k) q P s u :=
  simulates_left matched hR next

theorem simulates_modify_left {f : σ → σ} {k : Unit → Prog σ A α} (matched : Matched rely R) (hR : R s u)
    (next : ∀ t v, R t v → Simulates rely (k ()) q P (f t) v) : Simulates rely (modify f >>= k) q P s u :=
  simulates_left matched hR next

theorem simulates_right {g : σ → σ} {l : σ → Prog σ A α'} (next : Simulates rely p (l u) P s (g u)) :
    Simulates rely p (act g l) P s u := by
  intro a t r
  obtain ⟨b, v, r', hP⟩ := next a t r
  exact ⟨b, v, .act .refl r', hP⟩

theorem simulates_get_right {γ : Type} {g : σ → γ} {l : γ → Prog σ A α'}
    (next : Simulates rely p (l (g u)) P s u) : Simulates rely p (get g >>= l) P s u :=
  simulates_right next

theorem simulates_modify_right {g : σ → σ} {l : Unit → Prog σ A α'}
    (next : Simulates rely p (l ()) P s (g u)) : Simulates rely p (modify g >>= l) P s u :=
  simulates_right next

end

end Prog

end Interference
