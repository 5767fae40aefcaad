import Mathlib

/-!
# Positions on the token ring

A ring position has a token and then lies before or after all keys of the token or at a key, and
at a key it may lie right after it. Sstables and partition ranges are delimited by keys; the
positions right after keys turn every bound into the first position inside or outside of it.
-/

namespace Scylla.Sstables

open Prod.Lex

/-- `dht::token`: before all keys, of a key, or after all keys. -/
abbrev Token (T : Type*) := WithBot (WithTop T)

abbrev DecoratedKey (T K : Type*) := T ×ₗ K

/-- What follows the token: before the keys, at a key or right after it, after the keys. -/
abbrev Place (K : Type*) := WithBot (WithTop (K ×ₗ Bool))

/-- `dht::ring_position_view`. -/
abbrev RingPosition (T K : Type*) := Token T ×ₗ Place K

namespace RingPosition

variable {T K : Type*} [LinearOrder T] [LinearOrder K]

def min : RingPosition T K := toLex (⊥, ⊥)

def max : RingPosition T K := toLex (⊤, ⊤)

def isMax (p : RingPosition T K) : Bool := (ofLex p).1 = ⊤

def place (k : K) (after : Bool) : Place K := ((toLex (k, after) : K ×ₗ Bool) : WithTop (K ×ₗ Bool))

def ofKey (k : DecoratedKey T K) (after : Bool) : RingPosition T K :=
  toLex ((((ofLex k).1 : WithTop T) : Token T), place (ofLex k).2 after)

/-- The constructor of views that takes `after_key`: it matters at a key only. -/
def withAfterKey (p : RingPosition T K) (after : Bool) : RingPosition T K :=
  match (ofLex p).2 with
  | some (some k) => toLex ((ofLex p).1, place (ofLex k).1 after)
  | _ => p

theorem place_lt_iff {k : K} {x : Place K} : place k false < x ↔ place k true ≤ x := by
  induction x using WithBot.recBotCoe with
  | bot => simp [place]
  | coe x =>
    induction x using WithTop.recTopCoe with
    | top =>
      refine ⟨fun _ => le_top, fun _ => ?_⟩
      exact WithBot.coe_lt_coe.mpr (WithTop.coe_lt_top _)
    | coe x =>
      obtain ⟨k', after⟩ := x
      change place k false < place k' after ↔ place k true ≤ place k' after
      simp only [place, WithBot.coe_lt_coe, WithTop.coe_lt_coe, WithBot.coe_le_coe,
        WithTop.coe_le_coe, toLex_lt_toLex, toLex_le_toLex]
      cases after <;> simp

variable {k : DecoratedKey T K} {p : RingPosition T K}

theorem ofKey_lt_iff : ofKey k false < p ↔ ofKey k true ≤ p := by
  obtain ⟨t, x⟩ := p
  change toLex _ < toLex (t, x) ↔ toLex _ ≤ toLex (t, x)
  rw [toLex_lt_toLex, toLex_le_toLex, place_lt_iff]

theorem le_ofKey_iff : p ≤ ofKey k false ↔ p < ofKey k true := by
  rw [← not_lt, ofKey_lt_iff, not_le]

theorem place_mono {k l : K} : place k false ≤ place l false ↔ k ≤ l := by
  rw [place, place, WithBot.coe_le_coe, WithTop.coe_le_coe, toLex_le_toLex]
  simp only [le_refl, and_true, ← le_iff_lt_or_eq]

theorem ofKey_le_ofKey {l : DecoratedKey T K} : ofKey k false ≤ ofKey l false ↔ k ≤ l := by
  rw [ofKey, ofKey, toLex_le_toLex, place_mono, le_iff, WithBot.coe_lt_coe,
    WithTop.coe_lt_coe, WithBot.coe_inj, WithTop.coe_inj]

omit [LinearOrder K] in
theorem isMax_max : (max : RingPosition T K).isMax = true := decide_eq_true rfl

theorem le_max (p : RingPosition T K) : p ≤ max := by
  obtain ⟨t, x⟩ := p
  change toLex (t, x) ≤ toLex (⊤, ⊤)
  rw [toLex_le_toLex]
  rcases (le_top : t ≤ ⊤).lt_or_eq with h | h
  · exact .inl h
  · exact .inr ⟨h, le_top⟩

theorem min_le (p : RingPosition T K) : min ≤ p := by
  obtain ⟨t, x⟩ := p
  change toLex (⊥, ⊥) ≤ toLex (t, x)
  rw [toLex_le_toLex]
  rcases (bot_le : ⊥ ≤ t).lt_or_eq with h | h
  · exact .inl h
  · exact .inr ⟨h, bot_le⟩

variable {q : RingPosition T K}

theorem isMax_mono (h : p ≤ q) (hp : p.isMax = true) : q.isMax = true := by
  have hle : (ofLex p).1 ≤ (ofLex q).1 := (le_iff.mp h).elim le_of_lt fun h => h.1.le
  rw [isMax, decide_eq_true_iff] at hp ⊢
  exact top_le_iff.mp (hp ▸ hle)

theorem ofKey_lt_of_isMax (hp : p.isMax = true) (after : Bool) : ofKey k after < p := by
  obtain ⟨t, x⟩ := p
  have ht : t = ⊤ := of_decide_eq_true hp
  change toLex _ < toLex (t, x)
  rw [toLex_lt_toLex, ht]
  exact .inl (WithBot.coe_lt_coe.mpr (WithTop.coe_lt_top _))

theorem withAfterKey_mono (p : RingPosition T K) (after : Bool) :
    p.withAfterKey false ≤ p.withAfterKey after := by
  cases after with
  | false => exact le_rfl
  | true =>
    unfold withAfterKey
    split
    · next k _ =>
      rw [toLex_le_toLex]
      exact .inr ⟨rfl, (place_lt_iff.mpr le_rfl).le⟩
    · exact le_rfl

theorem withAfterKey_false_le (p : RingPosition T K) : p.withAfterKey false ≤ p := by
  obtain ⟨t, x⟩ := p
  induction x using WithBot.recBotCoe with
  | bot => exact le_rfl
  | coe x =>
    induction x using WithTop.recTopCoe with
    | top => exact le_rfl
    | coe x =>
      obtain ⟨k, after⟩ := x
      change toLex (t, place k false) ≤ toLex (t, place k after)
      rw [toLex_le_toLex]
      cases after with
      | false => exact .inr ⟨rfl, le_rfl⟩
      | true => exact .inr ⟨rfl, (place_lt_iff.mpr le_rfl).le⟩

theorem withAfterKey_true_le (h : p < q) : p.withAfterKey true ≤ q := by
  obtain ⟨t, x⟩ := p
  induction x using WithBot.recBotCoe with
  | bot => exact h.le
  | coe x =>
    induction x using WithTop.recTopCoe with
    | top => exact h.le
    | coe x =>
      obtain ⟨k, after⟩ := x
      cases after with
      | true => exact h.le
      | false =>
        obtain ⟨t', x'⟩ := q
        change toLex _ < toLex (t', x') at h
        change toLex _ ≤ toLex (t', x')
        rw [toLex_lt_toLex] at h
        rw [toLex_le_toLex]
        exact h.imp_right fun h => ⟨h.1, place_lt_iff.mp h.2⟩

end RingPosition

end Scylla.Sstables
