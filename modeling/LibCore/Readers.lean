import Mathlib.Data.List.Infix

/-!
# Readers

Programs that take items off a source one after another. What a source has still to give is a list,
`stream`; `Ends` says that the program will see where it stops. `Takes S f wire a` is the
specification of a reader `f` that recognises `wire`: on every source that goes on with `wire`, `f`
returns `a` and leaves what comes after it, and on every source that ends in the middle of `wire`, `f`
fails. `Leads` says the same of a reader that goes on after `wire`. Two readers in a row take one wire
after the other, so that the specification of a program is put together along its text.

Nothing here names a program.

## Main results

* `Leads.trans`: one wire after the other.
* `Takes.bind`, `Takes.bind_refuses`: the rules for two readers in a row.
* `Returns.bind`: two readers that come to an end, one after the other.
-/

/-- What a call on a source comes to: it does not return, it fails for good, or it has a result and
leaves the source in a new state. -/
inductive Outcome (T α : Type) where
  | hangs
  | rejected
  | got (a : α) (t : T)

/-- A program that reads. -/
def Reader (T α : Type) : Type := T → Outcome T α

namespace Reader

variable {T α β : Type}

instance : Monad (Reader T) where
  pure a := fun t => .got a t
  bind f k := fun t =>
    match f t with
    | .hangs => .hangs
    | .rejected => .rejected
    | .got a t => k a t

/-- Fail. -/
def reject : Reader T α := fun _ => .rejected

/-- Take no result for a failure. -/
def orReject (f : Reader T (Option α)) : Reader T α := f >>= fun a => a.elim reject pure

theorem bind_of_got {f : Reader T α} {t t' : T} {a : α} (h : f t = .got a t')
    (k : α → Reader T β) : (f >>= k) t = k a t' := by
  change (match f t with | .hangs => _ | .rejected => _ | .got a t => k a t) = _
  rw [h]

theorem bind_of_rejected {f : Reader T α} {t : T} (h : f t = .rejected) (k : α → Reader T β) :
    (f >>= k) t = .rejected := by
  change (match f t with | .hangs => _ | .rejected => _ | .got a t => k a t) = _
  rw [h]

theorem bind_of_hangs {f : Reader T α} {t : T} (h : f t = .hangs) (k : α → Reader T β) :
    (f >>= k) t = .hangs := by
  change (match f t with | .hangs => _ | .rejected => _ | .got a t => k a t) = _
  rw [h]

theorem bind_bind {γ : Type} (f : Reader T α) (k : α → Reader T β) (l : β → Reader T γ) :
    f >>= k >>= l = f >>= fun a => k a >>= l := by
  funext t
  cases h : f t with
  | hangs => rw [bind_of_hangs h, bind_of_hangs (bind_of_hangs h k)]
  | rejected => rw [bind_of_rejected h, bind_of_rejected (bind_of_rejected h k)]
  | got a t' =>
      have hk : (f >>= k) t = k a t' := bind_of_got h k
      rw [bind_of_got h]
      cases h' : k a t' with
      | hangs => rw [bind_of_hangs h', bind_of_hangs (hk.trans h')]
      | rejected => rw [bind_of_rejected h', bind_of_rejected (hk.trans h')]
      | got b t'' => rw [bind_of_got h', bind_of_got (hk.trans h')]

/-- What two readers in a row have got, they got one after the other. -/
theorem of_bind_got {f : Reader T α} {k : α → Reader T β} {t t' : T} {b : β}
    (h : (f >>= k) t = .got b t') : ∃ a t₁, f t = .got a t₁ ∧ k a t₁ = .got b t' := by
  cases hf : f t with
  | hangs => simp [bind_of_hangs hf] at h
  | rejected => simp [bind_of_rejected hf] at h
  | got a t₁ => exact ⟨a, t₁, rfl, (bind_of_got hf k).symm.trans h⟩

/-- Two readers in a row return if the first does, and the second where it starts. -/
theorem bind_ne_hangs {f : Reader T α} {k : α → Reader T β} {t : T} (hf : f t ≠ .hangs)
    (hk : ∀ a t', f t = .got a t' → k a t' ≠ .hangs) : (f >>= k) t ≠ .hangs := by
  cases h : f t with
  | hangs => exact absurd h hf
  | rejected =>
      rw [bind_of_rejected h]
      simp
  | got a t' =>
      rw [bind_of_got h]
      exact hk a t' h

@[simp] theorem reject_bind (k : α → Reader T β) : reject >>= k = reject := rfl

@[simp] theorem orReject_pure (a : Option α) :
    orReject (pure a : Reader T (Option α)) = a.elim reject pure := rfl

theorem orReject_bind (f : Reader T α) (k : α → Reader T (Option β)) :
    orReject (f >>= k) = f >>= fun a => orReject (k a) := bind_bind _ _ _

theorem bind_orReject (f : Reader T (Option α)) (k : α → Reader T β) :
    orReject f >>= k = f >>= fun a => a.elim reject k := by
  rw [orReject, bind_bind]
  congr 1
  funext a
  cases a with
  | none => rfl
  | some a => rfl

end Reader

/-- A call does not fail, and what it returns has a property. -/
def Outcome.Holds {T α : Type} (P : α → T → Prop) : Outcome T α → Prop
  | .hangs => True
  | .rejected => False
  | .got a t => P a t

theorem Outcome.Holds.bind {T α β : Type} {f : Reader T α} {k : α → Reader T β} {t : T} {P : α → T → Prop}
    {Q : β → T → Prop} (hf : (f t).Holds P) (hk : ∀ a t', P a t' → (k a t').Holds Q) :
    ((f >>= k) t).Holds Q := by
  cases h : f t with
  | hangs =>
      rw [Reader.bind_of_hangs h]
      trivial
  | rejected =>
      rw [h] at hf
      exact hf.elim
  | got a t' =>
      rw [h] at hf
      rw [Reader.bind_of_got h]
      exact hk a t' hf

theorem Outcome.Holds.mono {T α : Type} {o : Outcome T α} {P Q : α → T → Prop} (h : o.Holds P)
    (hPQ : ∀ a t, P a t → Q a t) : o.Holds Q := by
  cases o with
  | hangs => trivial
  | rejected => exact h
  | got a t => exact hPQ a t h

/-- What a program reads from: the items still to come, and whether their end will be seen. -/
structure Source (T σ : Type) where
  stream : T → List σ
  Ends : T → Prop

variable {T σ α β : Type} {S : Source T σ} {f g : Reader T α} {k : α → Reader T β}
  {wire wire' : List σ} {a : α} {b : β}

/-- `f` takes exactly `wire` and goes on as `g`; where the source ends before the end of `wire`, it
fails. -/
structure Leads (S : Source T σ) (f : Reader T α) (wire : List σ) (g : Reader T α) : Prop where
  whole : ∀ {t : T} {rest : List σ}, S.stream t = wire ++ rest →
    ∃ t', f t = g t' ∧ S.stream t' = rest ∧ (S.Ends t → S.Ends t')
  cut : ∀ {t : T}, S.Ends t → S.stream t <+: wire → S.stream t ≠ wire → f t = .rejected

/-- `f` takes exactly `wire` and returns `a`; where the source ends before the end of `wire`, it
fails. -/
def Takes (S : Source T σ) (f : Reader T α) (wire : List σ) (a : α) : Prop :=
  Leads S f wire (pure a)

/-- `f` fails on every source that goes on with `wire`. -/
def Refuses (S : Source T σ) (f : Reader T α) (wire : List σ) : Prop :=
  ∀ (t : T) (rest : List σ), S.stream t = wire ++ rest → f t = .rejected

theorem Leads.refl (f : Reader T α) : Leads S f [] f where
  whole := fun {t rest} h => ⟨t, rfl, by simpa using h, id⟩
  cut := fun _ h hne => (hne (List.prefix_nil.mp h)).elim

/-- One wire after the other. -/
theorem Leads.trans {h : Reader T α} (hf : Leads S f wire g) (hg : Leads S g wire' h) :
    Leads S f (wire ++ wire') h where
  whole := by
    intro t rest hstream
    obtain ⟨t₁, hft, hrest, hends⟩ := hf.whole (hstream.trans (List.append_assoc _ _ _))
    obtain ⟨t₂, hgt, hrest', hends'⟩ := hg.whole hrest
    exact ⟨t₂, hft.trans hgt, hrest', hends' ∘ hends⟩
  cut := by
    intro t hends hpre hne
    by_cases hw : wire <+: S.stream t
    · -- the source ends in the second wire
      obtain ⟨s, hs⟩ := hw
      obtain ⟨t₁, hft, hrest, hends'⟩ := hf.whole hs.symm
      rw [← hs, List.prefix_append_right_inj] at hpre
      rw [← hs, Ne, List.append_cancel_left_eq] at hne
      rw [hft]
      exact hg.cut (hends' hends) (hrest ▸ hpre) (hrest ▸ hne)
    · refine hf.cut hends ?_ fun h => hw (h ▸ List.prefix_rfl)
      exact (List.prefix_or_prefix_of_prefix hpre (List.prefix_append _ _)).resolve_right hw

theorem Leads.refuses (hf : Leads S f wire g) (hg : Refuses S g wire') :
    Refuses S f (wire ++ wire') := by
  intro t rest h
  obtain ⟨t₁, hft, hrest, -⟩ := hf.whole (h.trans (List.append_assoc _ _ _))
  exact hft.trans (hg t₁ rest hrest)

theorem Takes.pure (a : α) : Takes S (pure a) [] a := Leads.refl _

/-- A program that starts with a reader goes on with its result. -/
theorem Takes.leads (hf : Takes S f wire a) (k : α → Reader T β) : Leads S (f >>= k) wire (k a) where
  whole := by
    intro t rest h
    obtain ⟨t', hft, hrest⟩ := hf.whole h
    exact ⟨t', Reader.bind_of_got hft k, hrest⟩
  cut := fun hends hpre hne => Reader.bind_of_rejected (hf.cut hends hpre hne) k

/-- Two readers in a row take one wire after the other. -/
theorem Takes.bind (hf : Takes S f wire a) (hk : Takes S (k a) wire' b) :
    Takes S (f >>= k) (wire ++ wire') b :=
  (hf.leads k).trans hk

/-- What the second reader refuses after the first has taken its wire, the two refuse. -/
theorem Takes.bind_refuses (hf : Takes S f wire a) (hk : Refuses S (k a) wire') :
    Refuses S (f >>= k) (wire ++ wire') :=
  (hf.leads k).refuses hk

theorem Refuses.bind (hf : Refuses S f wire) : Refuses S (f >>= k) wire :=
  fun t rest h => Reader.bind_of_rejected (hf t rest h) k

theorem Refuses.append (hf : Refuses S f wire) (wire' : List σ) : Refuses S f (wire ++ wire') :=
  fun t rest h => hf t (wire' ++ rest) (h.trans (List.append_assoc _ _ _))

theorem refuses_reject : Refuses S (Reader.reject : Reader T α) [] := fun _ _ _ => rfl

/-! ### Readers that come to an end -/

/-- Wherever the end of the source will be seen, `f` returns, and where it has a result, the end will still be
seen. -/
structure Returns (S : Source T σ) (f : Reader T α) : Prop where
  returns : ∀ {t}, S.Ends t → f t ≠ .hangs
  ends : ∀ {t a t'}, S.Ends t → f t = .got a t' → S.Ends t'

theorem Returns.pure (a : α) : Returns S (pure a) where
  returns := fun _ h => by cases h
  ends := fun hends h => by
    cases h
    exact hends

theorem Returns.reject : Returns S (Reader.reject : Reader T α) where
  returns := fun _ h => by cases h
  ends := fun _ h => by cases h

theorem Returns.bind_ne_hangs (hf : Returns S f) {t : T} (hends : S.Ends t)
    (hk : ∀ a t', S.Ends t' → k a t' ≠ .hangs) : (f >>= k) t ≠ .hangs :=
  Reader.bind_ne_hangs (hf.returns hends) fun a t' h => hk a t' (hf.ends hends h)

theorem Returns.bind (hf : Returns S f) (hk : ∀ a, Returns S (k a)) : Returns S (f >>= k) where
  returns := fun hends => hf.bind_ne_hangs hends fun a _ => (hk a).returns
  ends := fun hends h => by
    obtain ⟨a, t₁, hft, hkt⟩ := Reader.of_bind_got h
    exact (hk a).ends (hf.ends hends hft) hkt
