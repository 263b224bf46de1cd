import RaftKv.Library.Ledger

/-!
# The changes a protocol may make to a ledger

Each operation comes with the conditions under which it keeps the invariant, and
with the fact that it only extends the ledger. What a protocol has sent out about
an earlier ledger (a piece of a leader's log, a committed prefix) therefore stays
true, whatever the nodes have done since.
-/

namespace Library.Ledger

variable {N T E : Type*} [LinearOrder T]
variable {stamp : E → T} {quorum : Set N → Prop} {first : T} {root : List E} {h h' : Ledger N T E}

namespace Extends

theorem refl (h : Ledger N T E) : Extends h h where
  leader _ _ ht := ht
  elected _ _ := rfl
  led _ := List.prefix_rfl
  acked _ _ := le_rfl
  term _ := le_rfl

theorem leader_ne_none (grows : Extends h h') {t : T} (ht : h.leader t ≠ none) :
    h'.leader t ≠ none := by
  obtain ⟨c, hc⟩ := Option.ne_none_iff_exists'.mp ht
  simp [grows.leader t c hc]

theorem take_led (grows : Extends h h') {t : T} {m : ℕ} (hm : m ≤ (h.led t).length) :
    (h'.led t).take m = (h.led t).take m := prefix_take (grows.led t) hm

theorem origin (grows : Extends h h') {x : List E} (hx : Origin stamp h x) :
    Origin stamp h' x := by
  intro k e hk
  have htake := hx k e hk
  have hlt : k < x.length := (List.getElem?_eq_some_iff.mp hk).1
  have hlen : k + 1 ≤ (h.led (stamp e)).length := by
    have := congrArg List.length htake
    simp only [List.length_take] at this
    omega
  rw [htake, grows.take_led hlen]

theorem kept (grows : Extends h h') {bound bound' : T → Prop} {t : T} {m : ℕ} {x y : List E}
    (hm : m ≤ (h.led t).length) (kept : h.Kept bound t m x) (widen : ∀ u, bound u → bound' u)
    (grow : (h.led t).take m <+: x → (h.led t).take m <+: y) : h'.Kept bound' t m y := by
  rcases kept with held | ⟨u, htu, hu, hleader, lost⟩
  · left
    rw [grows.take_led hm]
    exact grow held
  · right
    refine ⟨u, htu, widen u hu, grows.leader_ne_none hleader, ?_⟩
    rw [grows.take_led hm, grows.elected u hleader]
    exact lost

theorem chosen (grows : Extends h h') {t : T} {k : ℕ} (hc : Chosen stamp quorum h t k) :
    Chosen stamp quorum h' t k := by
  obtain ⟨hleader, ⟨Q, hQ, acks⟩, e, he, hstamp⟩ := hc
  exact ⟨grows.leader_ne_none hleader,
    ⟨Q, hQ, fun v hv => (acks v hv).trans (grows.acked v t)⟩,
    e, prefix_getElem? (grows.led t) he, hstamp⟩

theorem committed (grows : Extends h h') {t u : T} {x : List E}
    (hx : Committed stamp quorum root h t x) (htu : t ≤ u) :
    Committed stamp quorum root h' u x := by
  rcases hx with hroot | ⟨s, k, hst, hc, hx⟩
  · exact .inl hroot
  · have hlen : k + 1 ≤ (h.led s).length := by
      obtain ⟨-, -, e, he, -⟩ := hc
      exact (List.getElem?_eq_some_iff.mp he).1
    refine .inr ⟨s, k, hst.trans htu, grows.chosen hc, ?_⟩
    rw [grows.take_led hlen]
    exact hx

theorem trans {h'' : Ledger N T E} (first : Extends h h') (second : Extends h' h'') :
    Extends h h'' where
  leader t c ht := second.leader t c (first.leader t c ht)
  elected t ht := (second.elected t (first.leader_ne_none ht)).trans (first.elected t ht)
  led t := (first.led t).trans (second.led t)
  acked v t := (first.acked v t).trans (second.acked v t)
  term v := (first.term v).trans (second.term v)

end Extends

/-- A shorter prefix of a committed one is committed. -/
theorem Committed.initial {t : T} {x y : List E} (hy : Committed stamp quorum root h t y)
    (hxy : x <+: y) : Committed stamp quorum root h t x := by
  rcases hy with hroot | ⟨s, k, hst, hc, hy⟩
  · exact .inl (hxy.trans hroot)
  · exact .inr ⟨s, k, hst, hc, hxy.trans hy⟩

/-- Only node `v` has moved. The other nodes keep their terms and logs, and the logs
they lead, and `v` has changed its log within a term only under a leader. -/
structure Moves (v : N) (h h' : Ledger N T E) : Prop extends Extends h h' where
  term_ne : ∀ w, w ≠ v → h'.term w = h.term w
  log_ne : ∀ w, w ≠ v → h'.log w = h.log w
  leader_ne : ∀ t w, w ≠ v → h'.leader t = some w → h.leader t = some w
  led_ne : ∀ t w, w ≠ v → h.leader t = some w → h'.led t = h.led t
  log_open : h'.term v = h.term v → h'.leader (h.term v) = none → h'.log v = h.log v

namespace Moves

theorem refl (v : N) (h : Ledger N T E) : Moves v h h :=
  { Extends.refl h with
    term_ne := fun _ _ => rfl
    log_ne := fun _ _ => rfl
    leader_ne := fun _ _ _ ht => ht
    led_ne := fun _ _ _ _ => rfl
    log_open := fun _ _ => rfl }

theorem trans {v : N} {h'' : Ledger N T E} (first : Moves v h h') (second : Moves v h' h'') :
    Moves v h h'' :=
  { first.toExtends.trans second.toExtends with
    term_ne := fun w hw => (second.term_ne w hw).trans (first.term_ne w hw)
    log_ne := fun w hw => (second.log_ne w hw).trans (first.log_ne w hw)
    leader_ne := fun t w hw ht => first.leader_ne t w hw (second.leader_ne t w hw ht)
    led_ne := fun t w hw ht =>
      (second.led_ne t w hw (first.leader t w ht)).trans (first.led_ne t w hw ht)
    log_open := by
      intro same open_
      have hterm : h'.term v = h.term v :=
        le_antisymm (same ▸ second.term v) (first.term v)
      have hopen : h'.leader (h.term v) = none := by
        by_contra hleader
        exact second.leader_ne_none hleader open_
      exact (second.log_open (same.trans hterm.symm) (hterm ▸ open_)).trans
        (first.log_open hterm hopen) }

end Moves

variable [DecidableEq N]

section Raise

/-- A node moves to a later term. -/
def raise (h : Ledger N T E) (v : N) (t : T) : Ledger N T E :=
  { h with term := Function.update h.term v t }

variable {v : N} {t : T} (later : h.term v ≤ t)

include later

theorem raise_term_le (w : N) : h.term w ≤ (h.raise v t).term w := by
  by_cases hw : w = v
  · subst hw
    simpa [raise] using later
  · simp [raise, hw]

theorem raise_extends : Extends h (h.raise v t) where
  leader _ _ ht := ht
  elected _ _ := rfl
  led _ := List.prefix_rfl
  acked _ _ := le_rfl
  term := raise_term_le later

theorem raise_moves : Moves v h (h.raise v t) :=
  { raise_extends later with
    term_ne := fun w hw => by simp [raise, hw]
    log_ne := fun _ _ => rfl
    leader_ne := fun _ _ _ ht => ht
    led_ne := fun _ _ _ _ => rfl
    log_open := fun _ _ => rfl }

theorem Sound.raise (sound : Sound stamp quorum first root h) :
    Sound stamp quorum first root (h.raise v t) where
  log_origin := sound.log_origin
  led_origin := sound.led_origin
  voted_origin := sound.voted_origin
  led_stamp := sound.led_stamp
  log_stamp w e he := (sound.log_stamp w e he).trans (raise_term_le later w)
  elected_stamp := sound.elected_stamp
  led_append := sound.led_append
  led_nil := sound.led_nil
  leader_first := sound.leader_first
  root_log := sound.root_log
  root_elected := sound.root_elected
  votes := sound.votes
  voted_term w u x hx := (sound.voted_term w u x hx).trans (raise_term_le later w)
  acked_term w u hu := (sound.acked_term w u hu).trans (raise_term_le later w)
  acked_le := sound.acked_le
  kept_log w u m hm :=
    (raise_extends later).kept (hm.trans (sound.acked_le w u)) (sound.kept_log w u m hm)
      (fun _ hs => hs.trans (raise_term_le later w)) id
  kept_vote := sound.kept_vote

end Raise

section Vote

/-- A node votes in its term; what counts is the log it has then. -/
def vote (h : Ledger N T E) (v : N) : Ledger N T E :=
  { h with voted :=
      Function.update h.voted v (Function.update (h.voted v) (h.term v) (some (h.log v))) }

variable {v : N}

theorem vote_extends : Extends h (h.vote v) where
  leader _ _ ht := ht
  elected _ _ := rfl
  led _ := List.prefix_rfl
  acked _ _ := le_rfl
  term _ := le_rfl

theorem vote_voted_self : (h.vote v).voted v (h.term v) = some (h.log v) := by
  simp [vote]

theorem vote_voted {w : N} {t : T} {x : List E} (hx : (h.vote v).voted w t = some x) :
    (w = v ∧ t = h.term v ∧ x = h.log v) ∨ h.voted w t = some x := by
  by_cases hw : w = v
  · subst hw
    by_cases ht : t = h.term w
    · subst ht
      left
      simpa [vote, eq_comm] using hx
    · right
      simpa [vote, ht] using hx
  · right
    simpa [vote, hw] using hx

theorem Sound.vote (sound : Sound stamp quorum first root h) (open_ : h.leader (h.term v) = none) :
    Sound stamp quorum first root (h.vote v) where
  log_origin := sound.log_origin
  led_origin := sound.led_origin
  voted_origin w t x hx := by
    rcases vote_voted hx with ⟨-, -, rfl⟩ | old
    · exact sound.log_origin v
    · exact sound.voted_origin w t x old
  led_stamp := sound.led_stamp
  log_stamp := sound.log_stamp
  elected_stamp := sound.elected_stamp
  led_append := sound.led_append
  led_nil := sound.led_nil
  leader_first := sound.leader_first
  root_log := sound.root_log
  root_elected := sound.root_elected
  votes t ht := by
    obtain ⟨Q, hQ, votes⟩ := sound.votes t ht
    refine ⟨Q, hQ, fun w hw => ?_⟩
    obtain ⟨x, hx, upToDate⟩ := votes w hw
    refine ⟨x, ?_, upToDate⟩
    have hne : ¬ (w = v ∧ t = h.term v) := by
      rintro ⟨-, rfl⟩
      exact ht open_
    by_cases hwv : w = v
    · subst hwv
      simpa [Ledger.vote, show t ≠ h.term w from fun heq => hne ⟨rfl, heq⟩] using hx
    · simpa [Ledger.vote, hwv] using hx
  voted_term w t x hx := by
    rcases vote_voted hx with ⟨rfl, rfl, -⟩ | old
    · exact le_rfl
    · exact sound.voted_term w t x old
  acked_term := sound.acked_term
  acked_le := sound.acked_le
  kept_log := sound.kept_log
  kept_vote w t u x m htu hx hm := by
    rcases vote_voted hx with ⟨rfl, rfl, rfl⟩ | old
    · -- nobody leads the voter's term yet, so what it has lost it lost to an earlier one
      rcases sound.kept_log w t m hm with held | ⟨s, hts, hs, hleader, lost⟩
      · exact .inl held
      · refine .inr ⟨s, hts, lt_of_le_of_ne hs ?_, hleader, lost⟩
        rintro rfl
        exact hleader open_
    · exact sound.kept_vote w t u x m htu old hm

end Vote

section Acknowledge

/-- The acknowledgements with one of them raised to `m`. -/
def acknowledge (h : Ledger N T E) (v : N) (t : T) (m : ℕ) : N → T → ℕ :=
  Function.update h.acked v (Function.update (h.acked v) t m)

theorem acknowledge_le {v w : N} {t u : T} {m k : ℕ} (hk : k ≤ h.acknowledge v t m w u) :
    (w = v ∧ u = t ∧ k ≤ m) ∨ k ≤ h.acked w u := by
  by_cases hw : w = v
  · subst hw
    by_cases hu : u = t
    · subst hu
      left
      simpa [acknowledge] using hk
    · right
      simpa [acknowledge, hu] using hk
  · right
    simpa [acknowledge, hw] using hk

theorem le_acknowledge {v : N} {t : T} {m : ℕ} (hm : h.acked v t ≤ m) (w : N) (u : T) :
    h.acked w u ≤ h.acknowledge v t m w u := by
  by_cases hw : w = v
  · subst hw
    by_cases hu : u = t
    · subst hu
      simpa [acknowledge] using hm
    · simp [acknowledge, hu]
  · simp [acknowledge, hw]

end Acknowledge

section Elect

/-- A node becomes the leader of its term with the log it has. -/
def elect (h : Ledger N T E) (c : N) : Ledger N T E :=
  { h with
    leader := Function.update h.leader (h.term c) (some c)
    elected := Function.update h.elected (h.term c) (h.log c)
    led := Function.update h.led (h.term c) (h.log c)
    acked := h.acknowledge c (h.term c) (h.log c).length }

variable {c : N} (sound : Sound stamp quorum first root h)
  (open_ : h.leader (h.term c) = none) (fresh : first < h.term c)

include sound open_ fresh

theorem elect_extends : Extends h (h.elect c) where
  leader t v ht := by
    have hne : t ≠ h.term c := by
      rintro rfl
      simp [open_] at ht
    simpa [elect, hne] using ht
  elected t ht := by
    have hne : t ≠ h.term c := by
      rintro rfl
      exact ht open_
    simp [elect, hne]
  led t := by
    by_cases hne : t = h.term c
    · subst hne
      rw [sound.led_nil _ open_ fresh.ne']
      exact List.nil_prefix
    · simp [elect, hne]
  acked v t := by
    refine le_acknowledge ?_ v t
    have hle := sound.acked_le c (h.term c)
    rw [sound.led_nil _ open_ fresh.ne'] at hle
    exact hle.trans (Nat.zero_le _)
  term _ := le_rfl

theorem elect_moves : Moves c h (h.elect c) :=
  { elect_extends sound open_ fresh with
    term_ne := fun _ _ => rfl
    log_ne := fun _ _ => rfl
    leader_ne := by
      intro t w hw ht
      by_cases hne : t = h.term c
      · rw [hne] at ht
        exact absurd (by simpa [elect] using ht.symm) hw
      · simpa [elect, hne] using ht
    led_ne := by
      intro t w _ ht
      have hne : t ≠ h.term c := by
        rintro rfl
        simp [open_] at ht
      simp [elect, hne]
    log_open := fun _ _ => rfl }

theorem Sound.elect (older : ∀ e ∈ h.log c, stamp e < h.term c)
    (won : ∃ Q, quorum Q ∧
      ∀ v ∈ Q, ∃ w, h.voted v (h.term c) = some w ∧ UpToDate stamp (h.log c) w) :
    Sound stamp quorum first root (h.elect c) := by
  have grows := elect_extends sound open_ fresh
  have old : ∀ t, t ≠ h.term c → (h.elect c).leader t = h.leader t ∧
      (h.elect c).elected t = h.elected t ∧ (h.elect c).led t = h.led t := by
    intro t ht
    simp [Ledger.elect, ht]
  have new : (h.elect c).elected (h.term c) = h.log c ∧ (h.elect c).led (h.term c) = h.log c := by
    simp [Ledger.elect]
  have acks : ∀ v t m, m ≤ (h.elect c).acked v t →
      (v = c ∧ t = h.term c ∧ m ≤ (h.log c).length) ∨ m ≤ h.acked v t :=
    fun v t m hm => acknowledge_le hm
  refine
    { log_origin := fun v => grows.origin (sound.log_origin v)
      led_origin := fun t => ?_
      voted_origin := fun v t w hw => grows.origin (sound.voted_origin v t w hw)
      led_stamp := fun t e he => ?_
      log_stamp := sound.log_stamp
      elected_stamp := fun t ht e he => ?_
      led_append := fun t ht => ?_
      led_nil := fun t ht hfirst => ?_
      leader_first := fun t ht => ?_
      root_log := sound.root_log
      root_elected := fun t ht => ?_
      votes := fun t ht => ?_
      voted_term := sound.voted_term
      acked_term := fun v t hpos => ?_
      acked_le := fun v t => ?_
      kept_log := fun v t m hm => ?_
      kept_vote := fun v t u w m htu hw hm => ?_ }
  · by_cases hne : t = h.term c
    · rw [hne, new.2]
      exact grows.origin (sound.log_origin c)
    · rw [(old t hne).2.2]
      exact grows.origin (sound.led_origin t)
  · by_cases hne : t = h.term c
    · rw [hne, new.2] at he
      exact hne ▸ (older e he).le
    · rw [(old t hne).2.2] at he
      exact sound.led_stamp t e he
  · by_cases hne : t = h.term c
    · rw [hne, new.1] at he
      exact hne ▸ older e he
    · rw [(old t hne).1] at ht
      rw [(old t hne).2.1] at he
      exact sound.elected_stamp t ht e he
  · by_cases hne : t = h.term c
    · exact ⟨[], by rw [hne, new.1, new.2, List.append_nil], by simp⟩
    · rw [(old t hne).1] at ht
      rw [(old t hne).2.1, (old t hne).2.2]
      exact sound.led_append t ht
  · by_cases hne : t = h.term c
    · simp [Ledger.elect, hne] at ht
    · rw [(old t hne).1] at ht
      rw [(old t hne).2.2]
      exact sound.led_nil t ht hfirst
  · by_cases hne : t = h.term c
    · exact hne ▸ fresh
    · rw [(old t hne).1] at ht
      exact sound.leader_first t ht
  · by_cases hne : t = h.term c
    · rw [hne, new.1]
      exact sound.root_log c
    · rw [(old t hne).1] at ht
      rw [(old t hne).2.1]
      exact sound.root_elected t ht
  · by_cases hne : t = h.term c
    · rw [hne, new.1]
      exact won
    · rw [(old t hne).1] at ht
      rw [(old t hne).2.1]
      exact sound.votes t ht
  · rcases acks v t 1 hpos with ⟨rfl, rfl, -⟩ | hold
    · exact le_rfl
    · exact sound.acked_term v t hold
  · rcases acks v t _ le_rfl with ⟨rfl, rfl, hle⟩ | hle
    · rw [new.2]
      exact hle
    · exact (hle.trans (sound.acked_le v t)).trans (grows.led t).length_le
  · rcases acks v t m hm with ⟨rfl, rfl, -⟩ | hle
    · left
      rw [new.2]
      exact List.take_prefix _ _
    · exact grows.kept (hle.trans (sound.acked_le v t)) (sound.kept_log v t m hle)
        (fun _ hs => hs) id
  · rcases acks v t m hm with ⟨rfl, rfl, -⟩ | hle
    · exact absurd (sound.voted_term v u w hw) (not_le.mpr htu)
    · exact grows.kept (hle.trans (sound.acked_le v t)) (sound.kept_vote v t u w m htu hw hle)
        (fun _ hs => hs) id

end Elect

section Append

/-- A leader adds an entry of its own term to its log. -/
def append (h : Ledger N T E) (c : N) (e : E) : Ledger N T E :=
  { h with
    log := Function.update h.log c (h.log c ++ [e])
    led := Function.update h.led (h.term c) (h.log c ++ [e])
    acked := h.acknowledge c (h.term c) (h.log c ++ [e]).length }

variable {c : N} {e : E} (sound : Sound stamp quorum first root h)
  (leads : h.leader (h.term c) ≠ none) (same : h.led (h.term c) = h.log c)

include sound same

theorem append_extends : Extends h (h.append c e) where
  leader _ _ ht := ht
  elected _ _ := rfl
  led t := by
    by_cases hne : t = h.term c
    · subst hne
      simp [append, same]
    · simp [append, hne]
  acked v t := by
    refine le_acknowledge ?_ v t
    have hle := sound.acked_le c (h.term c)
    rw [same] at hle
    exact hle.trans (by simp)
  term _ := le_rfl

theorem append_moves (mine : h.leader (h.term c) = some c) : Moves c h (h.append c e) :=
  { append_extends sound same with
    term_ne := fun _ _ => rfl
    log_ne := fun w hw => by simp [append, hw]
    leader_ne := fun _ _ _ ht => ht
    led_ne := by
      intro t w hw ht
      have hne : t ≠ h.term c := by
        rintro rfl
        exact hw (Option.some.inj (ht.symm.trans mine))
      simp [append, hne]
    log_open := by
      intro _ hopen
      have hleader : h.leader (h.term c) = none := hopen
      rw [mine] at hleader
      cases hleader }

include leads

theorem Sound.append (own : stamp e = h.term c) :
    Sound stamp quorum first root (h.append c e) := by
  have grows : Extends h (h.append c e) := append_extends sound same
  have newLed : (h.append c e).led (h.term c) = h.log c ++ [e] := by simp [Ledger.append]
  have oldLed : ∀ t, t ≠ h.term c → (h.append c e).led t = h.led t := by
    intro t ht
    simp [Ledger.append, ht]
  have newLog : (h.append c e).log c = h.log c ++ [e] := by simp [Ledger.append]
  have oldLog : ∀ v, v ≠ c → (h.append c e).log v = h.log v := by
    intro v hv
    simp [Ledger.append, hv]
  have acks : ∀ v t m, m ≤ (h.append c e).acked v t →
      (v = c ∧ t = h.term c ∧ m ≤ (h.log c ++ [e]).length) ∨ m ≤ h.acked v t :=
    fun v t m hm => acknowledge_le hm
  have growLog : ∀ v, h.log v <+: (h.append c e).log v := by
    intro v
    by_cases hv : v = c
    · rw [hv, newLog]
      exact List.prefix_append _ _
    · rw [oldLog v hv]
  have origin : Origin stamp (h.append c e) (h.log c ++ [e]) := by
    intro k a hk
    by_cases hlt : k < (h.log c).length
    · rw [List.getElem?_append_left hlt] at hk
      rw [List.take_append_of_le_length hlt]
      exact grows.origin (sound.log_origin c) k a hk
    · have hke : k = (h.log c).length ∧ a = e := by
        rw [List.getElem?_append_right (not_lt.mp hlt)] at hk
        obtain ⟨hin, hval⟩ := List.getElem?_eq_some_iff.mp hk
        simp only [List.length_singleton] at hin
        exact ⟨by omega, by simpa [eq_comm] using hval⟩
      rw [hke.2, own, newLed]
  refine
    { log_origin := fun v => ?_
      led_origin := fun t => ?_
      voted_origin := fun v t w hw => grows.origin (sound.voted_origin v t w hw)
      led_stamp := fun t a ha => ?_
      log_stamp := fun v a ha => ?_
      elected_stamp := sound.elected_stamp
      led_append := fun t ht => ?_
      led_nil := fun t ht hfirst => ?_
      leader_first := sound.leader_first
      root_log := fun v => (sound.root_log v).trans (growLog v)
      root_elected := sound.root_elected
      votes := sound.votes
      voted_term := sound.voted_term
      acked_term := fun v t hpos => ?_
      acked_le := fun v t => ?_
      kept_log := fun v t m hm => ?_
      kept_vote := fun v t u w m htu hw hm => ?_ }
  · by_cases hv : v = c
    · rw [hv, newLog]
      exact origin
    · rw [oldLog v hv]
      exact grows.origin (sound.log_origin v)
  · by_cases ht : t = h.term c
    · rw [ht, newLed]
      exact origin
    · rw [oldLed t ht]
      exact grows.origin (sound.led_origin t)
  · by_cases ht : t = h.term c
    · rw [ht, newLed, ← same, List.mem_append, List.mem_singleton] at ha
      rcases ha with ha | rfl
      · exact ht ▸ sound.led_stamp _ a ha
      · exact ht ▸ own.le
    · rw [oldLed t ht] at ha
      exact sound.led_stamp t a ha
  · by_cases hv : v = c
    · rw [hv, newLog, List.mem_append, List.mem_singleton] at ha
      rcases ha with ha | rfl
      · exact hv ▸ sound.log_stamp c a ha
      · exact hv ▸ own.le
    · rw [oldLog v hv] at ha
      exact sound.log_stamp v a ha
  · by_cases hne : t = h.term c
    · obtain ⟨added, hled, hadded⟩ := sound.led_append _ leads
      refine ⟨added ++ [e], ?_, ?_⟩
      · rw [hne, newLed, ← same, hled, List.append_assoc]
        rfl
      · intro a ha
        rcases List.mem_append.mp ha with ha | ha
        · exact hne ▸ hadded a ha
        · rw [List.mem_singleton.mp ha, own, hne]
    · rw [oldLed t hne]
      exact sound.led_append t ht
  · by_cases hne : t = h.term c
    · exact absurd (hne ▸ ht) leads
    · rw [oldLed t hne]
      exact sound.led_nil t ht hfirst
  · rcases acks v t 1 hpos with ⟨rfl, rfl, -⟩ | hold
    · exact le_rfl
    · exact sound.acked_term v t hold
  · rcases acks v t _ le_rfl with ⟨rfl, rfl, hle⟩ | hle
    · rw [newLed]
      exact hle
    · exact (hle.trans (sound.acked_le v t)).trans (grows.led t).length_le
  · rcases acks v t m hm with ⟨rfl, rfl, -⟩ | hle
    · left
      rw [newLed, newLog]
      exact List.take_prefix _ _
    · exact grows.kept (hle.trans (sound.acked_le v t)) (sound.kept_log v t m hle)
        (fun _ hs => hs) (fun held => held.trans (growLog v))
  · rcases acks v t m hm with ⟨rfl, rfl, -⟩ | hle
    · exact absurd (sound.voted_term v u w hw) (not_le.mpr htu)
    · exact grows.kept (hle.trans (sound.acked_le v t)) (sound.kept_vote v t u w m htu hw hle)
        (fun _ hs => hs) id

end Append

section Adopt

open scoped Classical in
/-- A node takes over the first `m` entries of its leader's log, unless its own
log already starts with them, and acknowledges them. -/
noncomputable def adopt (h : Ledger N T E) (v : N) (m : ℕ) : Ledger N T E :=
  { h with
    log := Function.update h.log v
      (if (h.led (h.term v)).take m <+: h.log v then h.log v else (h.led (h.term v)).take m)
    acked := h.acknowledge v (h.term v) (max (h.acked v (h.term v)) m) }

variable {v : N} {m : ℕ}

theorem adopt_log_self :
    ((h.adopt v m).log v = h.log v ∧ (h.led (h.term v)).take m <+: h.log v) ∨
      ((h.adopt v m).log v = (h.led (h.term v)).take m ∧ ¬ (h.led (h.term v)).take m <+: h.log v) := by
  by_cases hp : (h.led (h.term v)).take m <+: h.log v
  · exact .inl ⟨by simp [adopt, hp], hp⟩
  · exact .inr ⟨by simp [adopt, hp], hp⟩

theorem adopt_log_ne {w : N} (hw : w ≠ v) : (h.adopt v m).log w = h.log w := by
  simp [adopt, hw]

theorem adopt_acked_self : m ≤ (h.adopt v m).acked v (h.term v) := by
  simp [adopt, acknowledge]

theorem take_prefix_adopt : (h.led (h.term v)).take m <+: (h.adopt v m).log v := by
  rcases adopt_log_self (h := h) (v := v) (m := m) with ⟨hlog, held⟩ | ⟨hlog, -⟩
  · rw [hlog]
    exact held
  · rw [hlog]

theorem adopt_extends : Extends h (h.adopt v m) where
  leader _ _ ht := ht
  elected _ _ := rfl
  led _ := List.prefix_rfl
  acked w t := le_acknowledge (le_max_left _ _) w t
  term _ := le_rfl

theorem adopt_moves (leads : h.leader (h.term v) ≠ none) : Moves v h (h.adopt v m) :=
  { adopt_extends with
    term_ne := fun _ _ => rfl
    log_ne := fun _ hw => adopt_log_ne hw
    leader_ne := fun _ _ _ ht => ht
    led_ne := fun _ _ _ _ => rfl
    log_open := fun _ hopen => absurd hopen leads }

/-- A prefix of the leader's log survives the adoption of another one. -/
theorem prefix_adopt {x : List E} (hx : x <+: h.log v) (hled : x <+: h.led (h.term v)) :
    x <+: (h.adopt v m).log v := by
  rcases adopt_log_self (h := h) (v := v) (m := m) with ⟨hlog, -⟩ | ⟨hlog, differs⟩
  · rw [hlog]
    exact hx
  · rw [hlog]
    refine List.prefix_take_iff.mpr ⟨hled, ?_⟩
    by_contra hlt
    refine differs (List.IsPrefix.trans ?_ hx)
    rw [prefix_take hled (not_le.mp hlt).le]
    exact List.take_prefix _ _

theorem Sound.adopt (sound : Sound stamp quorum first root h)
    (leads : h.leader (h.term v) ≠ none) (hm : m ≤ (h.led (h.term v)).length) :
    Sound stamp quorum first root (h.adopt v m) := by
  have grows : Extends h (h.adopt v m) := adopt_extends
  have acks : ∀ w t k, k ≤ (h.adopt v m).acked w t →
      (w = v ∧ t = h.term v ∧ k ≤ max (h.acked v (h.term v)) m) ∨ k ≤ h.acked w t :=
    fun w t k hk => acknowledge_le hk
  refine
    { log_origin := fun w => ?_
      led_origin := fun t => grows.origin (sound.led_origin t)
      voted_origin := fun w t x hx => grows.origin (sound.voted_origin w t x hx)
      led_stamp := sound.led_stamp
      log_stamp := fun w e he => ?_
      elected_stamp := sound.elected_stamp
      led_append := sound.led_append
      led_nil := sound.led_nil
      leader_first := sound.leader_first
      root_log := fun w => ?_
      root_elected := sound.root_elected
      votes := sound.votes
      voted_term := sound.voted_term
      acked_term := fun w t hpos => ?_
      acked_le := fun w t => ?_
      kept_log := fun w t k hk => ?_
      kept_vote := fun w t u x k htu hx hk => ?_ }
  · by_cases hw : w = v
    · subst hw
      rcases adopt_log_self (h := h) (v := w) (m := m) with ⟨hlog, -⟩ | ⟨hlog, -⟩
      · rw [hlog]
        exact grows.origin (sound.log_origin w)
      · rw [hlog]
        exact (grows.origin (sound.led_origin _)).initial (List.take_prefix _ _)
    · rw [adopt_log_ne hw]
      exact grows.origin (sound.log_origin w)
  · by_cases hw : w = v
    · subst hw
      rcases adopt_log_self (h := h) (v := w) (m := m) with ⟨hlog, -⟩ | ⟨hlog, -⟩
      · rw [hlog] at he
        exact sound.log_stamp w e he
      · rw [hlog] at he
        exact sound.led_stamp _ e (List.mem_of_mem_take he)
    · rw [adopt_log_ne hw] at he
      exact sound.log_stamp w e he
  · by_cases hw : w = v
    · subst hw
      exact prefix_adopt (sound.root_log w)
        ((sound.root_elected _ leads).trans (sound.elected_prefix leads))
    · rw [adopt_log_ne hw]
      exact sound.root_log w
  · rcases acks w t 1 hpos with ⟨rfl, rfl, -⟩ | old
    · exact le_rfl
    · exact sound.acked_term w t old
  · rcases acks w t _ le_rfl with ⟨rfl, rfl, hle⟩ | hle
    · exact hle.trans (max_le (sound.acked_le w _) hm)
    · exact hle.trans (sound.acked_le w t)
  · -- what the leader of a later term does not have, it started without
    have survive : ∀ s, s ≤ h.term v → k ≤ h.acked v s →
        (h.adopt v m).Kept (· ≤ h.term v) s k ((h.adopt v m).log v) := by
      intro s hs hks
      rcases sound.kept_log v s k hks with held | ⟨u, hsu, hu, hleader, lost⟩
      · rcases hs.lt_or_eq with hlt | rfl
        · by_cases started : (h.led s).take k <+: h.elected (h.term v)
          · exact .inl (prefix_adopt held (started.trans (sound.elected_prefix leads)))
          · exact .inr ⟨_, hlt, le_rfl, leads, started⟩
        · exact .inl (prefix_adopt held (List.take_prefix _ _))
      · exact .inr ⟨u, hsu, hu, hleader, lost⟩
    rcases acks w t k hk with ⟨rfl, rfl, hle⟩ | hle
    · rcases le_max_iff.mp hle with old | new
      · exact survive _ le_rfl old
      · exact .inl (take_prefix_of_le (take_prefix_adopt (h := h)) new)
    · by_cases hw : w = v
      · subst hw
        by_cases hk0 : k = 0
        · subst hk0
          exact .inl (by simp)
        · exact survive t (sound.acked_term w t (by omega)) hle
      · exact grows.kept (hle.trans (sound.acked_le w t)) (sound.kept_log w t k hle)
          (fun _ hs => hs) (fun held => by rwa [adopt_log_ne hw])
  · rcases acks w t k hk with ⟨rfl, rfl, -⟩ | hle
    · exact absurd (sound.voted_term w u x hx) (not_le.mpr htu)
    · exact grows.kept (hle.trans (sound.acked_le w t)) (sound.kept_vote w t u x k htu hx hle)
        (fun _ hs => hs) id

end Adopt

end Library.Ledger
