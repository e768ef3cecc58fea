import KeyForest.Proofs.Identity
import Mathlib.Data.List.Nodup
import Mathlib.Logic.Relation

/-!
# Issuers and their cycles

Among keys each certificate has at most one issuer, so the way up along the issuers is settled at
every step. A way that leads back to where it began is a cycle, and whoever is above a certificate
on a cycle is on the cycle as well (`OnCycle.sameCycle`).
-/
namespace KeyForest

/-- Whether one of the keys stands for the certificate `x` and names `p` as its issuer. -/
def Issues (keys : List Key) (p x : Ident) : Prop :=
  ∃ key ∈ keys, key.ident = x ∧ key.issuer = some p

/-- Whether the way along the issuers that the keys name leads from a certificate back to it. -/
def OnCycle (keys : List Key) (x : Ident) : Prop := Relation.TransGen (Issues keys) x x

theorem OnCycle.mono {keys others : List Key} (h : ∀ key ∈ keys, key ∈ others) {x : Ident}
    (hx : OnCycle keys x) : OnCycle others x := by
  have hissues : Issues keys ≤ Issues others :=
    fun _ _ ⟨key, hkey, hissues⟩ => ⟨key, h key hkey, hissues⟩
  exact Relation.TransGen.mono hissues x x hx

/-- No certificate is on a cycle if issuers come before what they issue in some order. -/
theorem not_onCycle_of_rank {keys : List Key} (rank : Ident → ℕ)
    (hrank : ∀ key ∈ keys, ∀ p ∈ key.issuer, rank p < rank key.ident) (x : Ident) :
    ¬ OnCycle keys x := by
  have hlt {p x : Ident} (h : Relation.TransGen (Issues keys) p x) : rank p < rank x := by
    induction h with
    | single h =>
      obtain ⟨key, hkey, rfl, hissuer⟩ := h
      exact hrank key hkey _ hissuer
    | tail _ h ih =>
      obtain ⟨key, hkey, rfl, hissuer⟩ := h
      exact Nat.lt_trans ih (hrank key hkey _ hissuer)
  exact fun hx => Nat.lt_irrefl _ (hlt hx)

/-- Whether two certificates are on one cycle: the issuers lead from each to the other. -/
def SameCycle (keys : List Key) (x y : Ident) : Prop :=
  Relation.TransGen (Issues keys) x y ∧ Relation.TransGen (Issues keys) y x

/-- Where everybody has at most one predecessor, whoever is before a cycle is on it. -/
theorem returns_of_unique {α : Type} {r : α → α → Prop} {q x : α}
    (hunique : ∀ a b c, r a c → r b c → a = b) (hx : Relation.TransGen r x x)
    (hbefore : Relation.ReflTransGen r q x) : Relation.ReflTransGen r x q := by
  induction hbefore using Relation.ReflTransGen.head_induction_on with
  | refl => exact .refl
  | @head q c hq _ ih =>
    -- Either way `c` has its only predecessor, `q`, on a way from `x`.
    have hc : Relation.TransGen r x c := by
      rcases Relation.reflTransGen_iff_eq_or_transGen.mp ih with rfl | hc
      · exact hx
      · exact hc
    obtain ⟨d, hxd, hdc⟩ := Relation.TransGen.tail'_iff.mp hc
    rwa [hunique d q c hdc hq] at hxd

section Issuers

variable {keys : List Key} {p q x : Ident}

/-- A certificate has at most one issuer. -/
theorem Issues.unique (hnodup : (keys.map Key.ident).Nodup) (hp : Issues keys p x)
    (hq : Issues keys q x) : p = q := by
  obtain ⟨key, hkey, rfl, hissuer⟩ := hp
  obtain ⟨other, hother, hident, hissuer'⟩ := hq
  rw [List.inj_on_of_nodup_map hnodup hother hkey hident, hissuer] at hissuer'
  exact Option.some.inj hissuer'

/-- The way along the issuers from a certificate on a cycle stays on the cycle. -/
theorem OnCycle.returns (hnodup : (keys.map Key.ident).Nodup) (hx : OnCycle keys x)
    (habove : Relation.ReflTransGen (Issues keys) q x) :
    Relation.ReflTransGen (Issues keys) x q :=
  returns_of_unique (fun _ _ _ hp hq => hp.unique hnodup hq) hx habove

theorem OnCycle.sameCycle (hnodup : (keys.map Key.ident).Nodup) (hx : OnCycle keys x)
    (habove : Relation.ReflTransGen (Issues keys) q x) : SameCycle keys x q :=
  ⟨hx.trans_left (hx.returns hnodup habove), Relation.TransGen.trans_right habove hx⟩

theorem SameCycle.trans {y z : Ident} (hxy : SameCycle keys x y) (hyz : SameCycle keys y z) :
    SameCycle keys x z :=
  ⟨hxy.1.trans hyz.1, hyz.2.trans hxy.2⟩

theorem SameCycle.symm {y : Ident} (h : SameCycle keys x y) : SameCycle keys y x := ⟨h.2, h.1⟩

/-- A certificate on a cycle has an issuer, which is on the cycle as well. -/
theorem SameCycle.exists_issuer {y : Ident} (h : SameCycle keys x y) :
    ∃ p, Issues keys p y ∧ ∃ key ∈ keys, key.ident = p := by
  obtain ⟨p, hp, hpy⟩ := Relation.TransGen.tail'_iff.mp (h.2.trans h.1)
  obtain ⟨_, _, key, hkey, hident, -⟩ := Relation.TransGen.tail'_iff.mp (h.1.trans_left hp)
  exact ⟨p, hpy, key, hkey, hident⟩

/-- On a cycle somebody is not above its issuer, whatever the ranks. -/
theorem OnCycle.exists_le (hnodup : (keys.map Key.ident).Nodup) (hx : OnCycle keys x)
    (rank : Ident → ℕ) : ∃ p y, Issues keys p y ∧ SameCycle keys x y ∧ rank y ≤ rank p := by
  by_contra hnone
  simp only [not_exists, not_and, Nat.not_le] at hnone
  have hlt {q : Ident} (habove : Relation.TransGen (Issues keys) q x) : rank q < rank x := by
    induction habove using Relation.TransGen.head_induction_on with
    | single hq => exact hnone _ x hq (hx.sameCycle hnodup .refl)
    | @head q c hq habove ih =>
      exact Nat.lt_trans (hnone q c hq (hx.sameCycle hnodup habove.to_reflTransGen)) ih
  exact Nat.lt_irrefl _ (hlt hx)

end Issuers

end KeyForest
