import QuoteLang.Proofs.ShortCircuit
import QuoteLang.Proofs.WellFormed
import QuoteLang.Proofs.Writes

set_option relaxedAutoImplicit false
set_option autoImplicit false

/-!
# Calls with plain results

A value without functions inside does not refer to any scope. Where a call yields such a value, it
yields that very value from every later store, since calls change no scope that was there before.

## Main definitions

* `Value.Ordinary` — a value is neither an error nor on its way out of a function.
* `Value.IsPlain` — a value has no error, no `return`, no function and no macro inside.
* `Value.Yields` — a call ends with a plain value.

## Main results

* `Value.IsPlain.eq_of_alike` — plain values are alike only if they are equal.
* `Value.Yields.of_extends` — a call yields the same plain value from every later store.
-/

namespace QuoteLang

open Run

/-! ## Plain values -/

/-- A value is **ordinary** if it is neither an error nor on its way out of a function. -/
structure Value.Ordinary (v : Value) : Prop where
  /-- It is no error. -/
  settled : v.Settled
  /-- It is not on its way out. -/
  isReturned_eq : v.isReturned = false

/-- A value is **plain** data if there is no error, no value on its way out of a function, no
function and no macro inside. -/
def Value.IsPlain (v : Value) : Prop :=
  ∀ w, v.Holds w → w.type ∉ [.error, .returned, .function, .macroFn]

namespace Value

variable {v w : Value}

/-- An ordinary value is what a function yields whose body has it as its value. -/
lemma Ordinary.settle_unwrapReturn (h : v.Ordinary) :
    Run.settle v.unwrapReturn = pure v := by
  obtain ⟨hsettled, hreturned⟩ := h
  cases v with
  | returned v => cases hreturned
  | _ => exact hsettled.settle

/-- What is inside plain data is plain. -/
lemma IsPlain.of_holds (h : v.IsPlain) (hw : v.Holds w) : w.IsPlain :=
  fun u hu => h u (hw.trans hu)

/-- Plain data are ordinary. -/
lemma IsPlain.ordinary (h : v.IsPlain) : v.Ordinary := by
  have htype := h v (.self v)
  cases v with
  | error | returned => simp [type] at htype
  | _ => exact ⟨rfl, rfl⟩

/-- Plain data refer to no scope. -/
lemma IsPlain.not_refersTo (h : v.IsPlain) (i : ScopeId) : ¬ v.RefersTo i := by
  rintro ⟨c, hc | hc, -⟩
  · simpa [type] using h _ hc
  · simpa [type] using h _ hc

/-- **Plain data are alike only if they are equal.** -/
theorem IsPlain.eq_of_alike {M : Pairing} (hv : v.IsPlain) (h : v.Alike M w) : v = w := by
  induction h with
  | int | bool | str | builtin | error | quote | null => rfl
  | @array vs ws hlen _ ih =>
    refine congrArg array (List.forall₂_eq_eq_eq ▸ List.forall₂_iff_zip.mpr ⟨hlen, fun hp => ?_⟩)
    exact ih _ hp (hv.of_holds (.item (List.of_mem_zip hp).1 (.self _)))
  | @hash ps qs hkeys hnodup h ih =>
    obtain ⟨hlen, hpairs⟩ := List.forall₂_iff_zip.mp (EntriesAlike.of_keys_eq hkeys h)
    refine congrArg hash (List.forall₂_eq_eq_eq ▸ List.forall₂_iff_zip.mpr ⟨hlen, fun hp => ?_⟩)
    refine Prod.ext (hpairs hp).1 ?_
    exact ih _ hp (hv.of_holds (.value (List.of_mem_zip hp).1 (.self _)))
  | function | macroFn | returned => simpa [type] using hv _ (.self _)

/-! ## Calls -/

/-- A call **yields** a plain value: it ends with that value, at some depth. -/
def Yields (f : Value) (st : Store) (args : List Value) (r : Value) : Prop :=
  r.IsPlain ∧ ∃ depth st', f.apply depth args st = .ok r st'

variable {f r : Value} {args : List Value} {st : Store}

/-- What a call does in a later store than the one it is given: it yields the same plain value. -/
lemma Yields.exists_alike (h : f.Yields st args r) (hst : st.WellFormed) (hf : f.Fits st)
    (hargs : ∀ v ∈ args, v.Fits st) {later : Store} (hext : st.Extends later) :
    ∃ (T : Twin) (depth : Nat), f.apply depth args later = .ok r T.right ∧
      r.Alike T.toPairing r := by
  obtain ⟨hplain, depth, st', happly⟩ := h
  have hfollows : Follows (.ofExtends hst hext) Alike (f.apply depth args) (f.apply depth args) :=
    Value.apply_follows (Nat.le_refl _) hf.alike (Store.alike_of_forall_fits hargs)
  obtain ⟨T, w, -, -, hw, halike⟩ := hfollows.of_ok happly
  obtain rfl := hplain.eq_of_alike halike
  exact ⟨T, depth, hw, halike⟩

/-- **A call yields the same plain value from every later store.** -/
theorem Yields.of_extends (h : f.Yields st args r) (hst : st.WellFormed) (hf : f.Fits st)
    (hargs : ∀ v ∈ args, v.Fits st) {later : Store} (hext : st.Extends later) :
    f.Yields later args r := by
  obtain ⟨T, depth, happly, -⟩ := h.exists_alike hst hf hargs hext
  exact ⟨h.1, depth, _, happly⟩

/-- The plain value that a call yields fits the store. -/
lemma Yields.fits (h : f.Yields st args r) (hst : st.WellFormed) (hf : f.Fits st)
    (hargs : ∀ v ∈ args, v.Fits st) : r.Fits st := by
  obtain ⟨T, -, -, halike⟩ := h.exists_alike hst hf hargs (.refl st)
  exact ⟨fun hi => absurd hi (h.1.not_refersTo _), halike.fits.nodup⟩

end Value

end QuoteLang
