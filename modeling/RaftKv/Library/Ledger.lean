import Mathlib.Data.List.Infix
import Mathlib.Logic.Function.Basic
import Mathlib.Order.Defs.LinearOrder
import Mathlib.Order.Interval.Finset.Defs
import Mathlib.Order.Interval.Finset.Basic

/-!
# Replicated logs under changing leaders

A ledger is the history of a replicated log: for every term the node that leads
it, the log the leader started from and the log it has now; for every node its
term and log, the log it held when it voted, and how much of a leader's log it
has acknowledged. Entries carry the term that created them. Nothing is said about
messages or about how a node decides; the operations at the end are the changes
that a protocol may make, with what has to be true when it makes them.

Two facts are the point. Logs agree below any entry they share the term of, since
both are prefixes of the log led in that term. And a prefix acknowledged by a
quorum, up to an entry of its leader's own term, starts every later leader's log.
-/

namespace Library

variable {N T E : Type*}

/-- The history of one replicated log. -/
structure Ledger (N T E : Type*) where
  term : N → T
  log : N → List E
  leader : T → Option N
  elected : T → List E
  led : T → List E
  voted : N → T → Option (List E)
  acked : N → T → ℕ

namespace Ledger

/-- Every prefix of `x` is a prefix of the log led in its last entry's term. -/
def Origin (stamp : E → T) (h : Ledger N T E) (x : List E) : Prop :=
  ∀ k e, x[k]? = some e → x.take (k + 1) = (h.led (stamp e)).take (k + 1)

theorem take_prefix_of_le {x y : List E} {m k : ℕ} (h : x.take k <+: y) (hm : m ≤ k) :
    x.take m <+: y :=
  (List.take_prefix_take_left hm).trans h

theorem prefix_take {x y : List E} {m : ℕ} (h : x <+: y) (hm : m ≤ x.length) :
    y.take m = x.take m := by
  obtain ⟨z, rfl⟩ := h
  exact List.take_append_of_le_length hm

theorem prefix_getElem? {x y : List E} {k : ℕ} {e : E} (h : x <+: y) (hx : x[k]? = some e) :
    y[k]? = some e := by
  obtain ⟨z, rfl⟩ := h
  rw [List.getElem?_append_left (List.getElem?_eq_some_iff.mp hx).1]
  exact hx

theorem getElem?_of_take_eq {x y : List E} {k m : ℕ} {e : E} (h : x.take m = y.take m)
    (hk : k < m) (hx : x[k]? = some e) : y[k]? = some e := by
  rw [← List.getElem?_take_of_lt hk, ← h, List.getElem?_take_of_lt hk]
  exact hx

section Origin

variable {stamp : E → T} {h : Ledger N T E}

theorem Origin.initial {x y : List E} (hy : Origin stamp h y) (hxy : x <+: y) :
    Origin stamp h x := by
  intro k e hk
  have hlt : k < x.length := (List.getElem?_eq_some_iff.mp hk).1
  rw [← prefix_take hxy hlt]
  exact hy k e (prefix_getElem? hxy hk)

/-- Two logs with the same term at one position agree up to it. -/
theorem Origin.matching {x y : List E} (hx : Origin stamp h x) (hy : Origin stamp h y)
    {k : ℕ} {a b : E} (ha : x[k]? = some a) (hb : y[k]? = some b) (hab : stamp a = stamp b) :
    x.take (k + 1) = y.take (k + 1) := by
  rw [hx k a ha, hy k b hb, hab]

/-- A log is a prefix of the log led in the term of its last entry. -/
theorem Origin.prefix_led {x : List E} (hx : Origin stamp h x) {a : E} (ha : x.getLast? = some a) :
    x = (h.led (stamp a)).take x.length := by
  have hne : x ≠ [] := by
    rintro rfl
    cases ha
  have hpos : 0 < x.length := List.length_pos_iff.mpr hne
  have hlast : x[x.length - 1]? = some a := by rwa [List.getLast?_eq_getElem?] at ha
  have htake := hx _ _ hlast
  rwa [Nat.sub_add_cancel hpos, List.take_length] at htake

end Origin

variable [LinearOrder T]

/-- `x` is at least as up to date as `y`: its last entry has a larger term, or
the same term and `x` is not shorter. -/
def UpToDate (stamp : E → T) (x y : List E) : Prop :=
  ∃ a b, x.getLast? = some a ∧ y.getLast? = some b ∧
    (stamp b < stamp a ∨ stamp b = stamp a ∧ y.length ≤ x.length)

/-- The first `m` entries led in term `t` are in `x`, or some leader of a term
between `t` and the bound started without them. -/
def Kept (h : Ledger N T E) (bound : T → Prop) (t : T) (m : ℕ) (x : List E) : Prop :=
  (h.led t).take m <+: x ∨
    ∃ u, t < u ∧ bound u ∧ h.leader u ≠ none ∧ ¬ (h.led t).take m <+: h.elected u

/-- The invariant of a ledger. Terms before `first` lead nothing, and `root` is
the log that everybody starts from. -/
structure Sound (stamp : E → T) (quorum : Set N → Prop) (first : T) (root : List E)
    (h : Ledger N T E) : Prop where
  log_origin : ∀ v, Origin stamp h (h.log v)
  led_origin : ∀ t, Origin stamp h (h.led t)
  voted_origin : ∀ v t w, h.voted v t = some w → Origin stamp h w
  led_stamp : ∀ t, ∀ e ∈ h.led t, stamp e ≤ t
  log_stamp : ∀ v, ∀ e ∈ h.log v, stamp e ≤ h.term v
  elected_stamp : ∀ t, h.leader t ≠ none → ∀ e ∈ h.elected t, stamp e < t
  led_append : ∀ t, h.leader t ≠ none →
    ∃ added, h.led t = h.elected t ++ added ∧ ∀ e ∈ added, stamp e = t
  led_nil : ∀ t, h.leader t = none → t ≠ first → h.led t = []
  leader_first : ∀ t, h.leader t ≠ none → first < t
  root_log : ∀ v, root <+: h.log v
  root_elected : ∀ t, h.leader t ≠ none → root <+: h.elected t
  votes : ∀ t, h.leader t ≠ none → ∃ Q, quorum Q ∧
    ∀ v ∈ Q, ∃ w, h.voted v t = some w ∧ UpToDate stamp (h.elected t) w
  voted_term : ∀ v t w, h.voted v t = some w → t ≤ h.term v
  acked_term : ∀ v t, 0 < h.acked v t → t ≤ h.term v
  acked_le : ∀ v t, h.acked v t ≤ (h.led t).length
  kept_log : ∀ v t m, m ≤ h.acked v t → h.Kept (· ≤ h.term v) t m (h.log v)
  kept_vote : ∀ v t u w m, t < u → h.voted v u = some w → m ≤ h.acked v t →
    h.Kept (· < u) t m w

/-- Entry `k` of the log led in term `t` is acknowledged by a quorum, and was
created in that term. -/
def Chosen (stamp : E → T) (quorum : Set N → Prop) (h : Ledger N T E) (t : T) (k : ℕ) : Prop :=
  h.leader t ≠ none ∧ (∃ Q, quorum Q ∧ ∀ v ∈ Q, k + 1 ≤ h.acked v t) ∧
    ∃ e, (h.led t)[k]? = some e ∧ stamp e = t

/-- `x` is part of the root, or of the prefix up to a chosen entry. -/
def Committed (stamp : E → T) (quorum : Set N → Prop) (root : List E) (h : Ledger N T E)
    (t : T) (x : List E) : Prop :=
  x <+: root ∨ ∃ u k, u ≤ t ∧ Chosen stamp quorum h u k ∧ x <+: (h.led u).take (k + 1)

/-- What never changes once it is there. -/
structure Extends (h h' : Ledger N T E) : Prop where
  leader : ∀ t c, h.leader t = some c → h'.leader t = some c
  elected : ∀ t, h.leader t ≠ none → h'.elected t = h.elected t
  led : ∀ t, h.led t <+: h'.led t
  acked : ∀ v t, h.acked v t ≤ h'.acked v t
  term : ∀ v, h.term v ≤ h'.term v

section Agreement

variable {stamp : E → T} {quorum : Set N → Prop} {first : T} {root : List E} {h : Ledger N T E}

theorem Sound.led_first (sound : Sound stamp quorum first root h) {t : T} (ht : h.led t ≠ []) :
    first ≤ t := by
  by_cases hleader : h.leader t = none
  · exact le_of_eq (by_contra fun hne => ht (sound.led_nil t hleader (Ne.symm hne)))
  · exact (sound.leader_first t hleader).le

/-- Terms do not decrease along a log. -/
theorem Sound.stamp_mono (sound : Sound stamp quorum first root h) {x : List E}
    (hx : Origin stamp h x) {a : E} (ha : x.getLast? = some a) {e : E} (he : e ∈ x) :
    stamp e ≤ stamp a := by
  rw [hx.prefix_led ha] at he
  exact sound.led_stamp _ e (List.mem_of_mem_take he)

theorem Sound.elected_prefix (sound : Sound stamp quorum first root h) {t : T}
    (ht : h.leader t ≠ none) : h.elected t <+: h.led t := by
  obtain ⟨added, hled, -⟩ := sound.led_append t ht
  exact ⟨added, hled.symm⟩

/-- An entry of a leader's own term comes after the log it was elected with. -/
theorem Sound.elected_length_le (sound : Sound stamp quorum first root h) {t : T}
    (ht : h.leader t ≠ none) {k : ℕ} {e : E} (hk : (h.led t)[k]? = some e) (he : stamp e = t) :
    (h.elected t).length ≤ k := by
  by_contra hlt
  have hin : (h.elected t)[k]? = some e := by
    obtain ⟨added, hled, -⟩ := sound.led_append t ht
    rwa [hled, List.getElem?_append_left (not_le.mp hlt)] at hk
  exact absurd he (sound.elected_stamp t ht e (List.mem_of_getElem? hin)).ne

/-- Up-to-dateness carries a chosen prefix from a voter's log to the candidate's,
if the leaders between the two terms have it. -/
theorem Sound.carry (sound : Sound stamp quorum first root h) {t u : T} {k : ℕ} {w : List E}
    (chosen : Chosen stamp quorum h t k) (hu : h.leader u ≠ none)
    (hw : Origin stamp h w) (upToDate : UpToDate stamp (h.elected u) w)
    (voter : (h.led t).take (k + 1) <+: w)
    (between : ∀ s, t < s → s < u → h.leader s ≠ none → (h.led t).take (k + 1) <+: h.elected s) :
    (h.led t).take (k + 1) <+: h.elected u := by
  obtain ⟨-, -, e, he, hstamp⟩ := chosen
  obtain ⟨a, b, ha, hb, newer⟩ := upToDate
  have horigin : Origin stamp h (h.elected u) := (sound.led_origin u).initial (sound.elected_prefix hu)
  have hcandidate := horigin.prefix_led ha
  have hew : e ∈ w :=
    voter.subset (List.mem_of_getElem? (by rw [List.getElem?_take_of_lt (Nat.lt_succ_self k)]; exact he))
  rcases newer with larger | ⟨same, longer⟩
  · -- the candidate's last entry was created by a leader between `t` and `u`
    have hta : t < stamp a := by
      rw [← hstamp]
      exact (sound.stamp_mono hw hb hew).trans_lt larger
    have hau : stamp a < u := sound.elected_stamp u hu a (List.mem_of_getLast? ha)
    have hlast : (h.elected u)[(h.elected u).length - 1]? = some a := by
      rwa [List.getLast?_eq_getElem?] at ha
    have hlen : 0 < (h.elected u).length := List.length_pos_iff.mpr (by rintro hnil; simp [hnil] at ha)
    have hled : (h.led (stamp a))[(h.elected u).length - 1]? = some a := by
      refine prefix_getElem? (x := h.elected u) ?_ hlast
      rw [hcandidate]
      exact List.take_prefix _ _
    have hleader : h.leader (stamp a) ≠ none := by
      intro hnone
      have hfirst : stamp a ≠ first := by
        have hle : first ≤ t := sound.led_first (by rintro hnil; simp [hnil] at he)
        exact (hle.trans_lt hta).ne'
      simp [sound.led_nil _ hnone hfirst] at hled
    have hbefore := sound.elected_length_le hleader hled rfl
    refine (between _ hta hau hleader).trans ?_
    rw [hcandidate]
    exact List.prefix_take_iff.mpr ⟨sound.elected_prefix hleader, by omega⟩
  · -- both logs end in the same term, and the candidate's is the longer one
    refine voter.trans ?_
    rw [hw.prefix_led hb, hcandidate, same]
    exact List.take_prefix_take_left longer

variable [LocallyFiniteOrder T]

/-- Every later leader starts with the chosen prefix. The induction is on the
number of terms in between. -/
theorem Sound.completeness (sound : Sound stamp quorum first root h)
    (intersect : ∀ A B, quorum A → quorum B → ∃ v, v ∈ A ∧ v ∈ B) {t u : T} {k : ℕ}
    (chosen : Chosen stamp quorum h t k) (htu : t < u) (hu : h.leader u ≠ none) :
    (h.led t).take (k + 1) <+: h.elected u := by
  induction hd : (Finset.Ioo t u).card using Nat.strong_induction_on generalizing u with
  | _ d ih =>
    have between : ∀ s, t < s → s < u → h.leader s ≠ none →
        (h.led t).take (k + 1) <+: h.elected s := by
      intro s hts hsu hs
      refine ih _ ?_ hts hs rfl
      rw [← hd]
      refine Finset.card_lt_card ⟨Finset.Ioo_subset_Ioo_right hsu.le, fun hsub => ?_⟩
      have hmem : s ∈ Finset.Ioo t s := hsub (Finset.mem_Ioo.mpr ⟨hts, hsu⟩)
      exact (Finset.mem_Ioo.mp hmem).2.false
    obtain ⟨Q, hQ, votes⟩ := sound.votes u hu
    obtain ⟨-, ⟨A, hA, acks⟩, -⟩ := id chosen
    obtain ⟨v, hvA, hvQ⟩ := intersect A Q hA hQ
    obtain ⟨w, hvoted, upToDate⟩ := votes v hvQ
    rcases sound.kept_vote v t u w _ htu hvoted (acks v hvA) with voter | ⟨s, hts, hsu, hs, lost⟩
    · exact sound.carry chosen hu (sound.voted_origin v u w hvoted) upToDate voter between
    · exact absurd (between s hts hsu hs) lost

variable (sound : Sound stamp quorum first root h)
  (intersect : ∀ A B, quorum A → quorum B → ∃ v, v ∈ A ∧ v ∈ B)

include sound intersect

/-- What is committed is in the log of every leader from then on. -/
theorem Committed.prefix_led {t u : T} {x : List E} (committed : Committed stamp quorum root h t x)
    (htu : t ≤ u) (hu : h.leader u ≠ none) : x <+: h.led u := by
  rcases committed with hroot | ⟨s, k, hst, chosen, hx⟩
  · exact (hroot.trans (sound.root_elected u hu)).trans (sound.elected_prefix hu)
  · rcases (hst.trans htu).lt_or_eq with hsu | rfl
    · exact (hx.trans (sound.completeness intersect chosen hsu hu)).trans (sound.elected_prefix hu)
    · exact hx.trans (List.take_prefix _ _)

/-- Two committed prefixes are prefixes of one log. -/
theorem Committed.comparable {t u : T} {x y : List E}
    (hx : Committed stamp quorum root h t x) (hy : Committed stamp quorum root h u y) :
    x <+: y ∨ y <+: x := by
  rcases id hx with hxroot | ⟨s, k, -, hs, hxs⟩
  · rcases id hy with hyroot | ⟨r, l, -, hr, hyr⟩
    · exact List.prefix_or_prefix_of_prefix hxroot hyroot
    · exact List.prefix_or_prefix_of_prefix
        (Committed.prefix_led sound intersect (t := r) (.inl hxroot) le_rfl hr.1)
        (hyr.trans (List.take_prefix _ _))
  · rcases id hy with hyroot | ⟨r, l, -, hr, hyr⟩
    · exact List.prefix_or_prefix_of_prefix (hxs.trans (List.take_prefix _ _))
        (Committed.prefix_led sound intersect (t := s) (.inl hyroot) le_rfl hs.1)
    · rcases le_total s r with hsr | hrs
      · exact List.prefix_or_prefix_of_prefix
          (Committed.prefix_led sound intersect (.inr ⟨s, k, le_rfl, hs, hxs⟩) hsr hr.1)
          (hyr.trans (List.take_prefix _ _))
      · exact List.prefix_or_prefix_of_prefix (hxs.trans (List.take_prefix _ _))
          (Committed.prefix_led sound intersect (.inr ⟨r, l, le_rfl, hr, hyr⟩) hrs hs.1)

end Agreement

end Ledger

end Library
