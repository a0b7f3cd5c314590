import LoggerBenchmarks.ListUpdates
import Mathlib.Logic.Relation

set_option autoImplicit false

/-!
# A binlog session

What a session is for: each writer adds its entries to the end of its channel, which may
be replaced by a new one; the consumer goes over the channels, in the order in which they
were created, takes what it has found in each and removes those that were closed before it
looked. No channel is created while it does so.
-/
namespace LoggerBenchmarks.BinlogSession
open ListUpdates

variable {M : Type}

inductive Taking where
  | idle
  | looked (due : ℕ)
  | copied (due : ℕ)
  deriving DecidableEq

structure Channel (M : Type) where
  owner : ℕ
  attached : Bool
  removed : Bool
  stored : List M
  taking : Taking

inductive Phase where
  | adding
  | attaching (new : ℕ)
  | last
  | closed
  deriving DecidableEq

structure Writer (M : Type) where
  pending : List M
  channel : ℕ
  phase : Phase
  attempts : List (M × Bool)

/-- Where the consumer is, and whether it has found the channel there closed. -/
inductive Consumer where
  | unlocked
  | polling (i : ℕ)
  | checked (i : ℕ) (isClosed : Bool)
  | reading (i : ℕ) (isClosed : Bool)
  deriving DecidableEq

def Consumer.position : Consumer → ℕ
  | .unlocked => 0
  | .polling i | .checked i _ | .reading i _ => i

structure Session (M : Type) where
  channels : List (Channel M)
  writers : List (Writer M)
  consumer : Consumer
  out : List (ℕ × List M)

def Writer.adds (w : Writer M) : Prop := w.phase = .adding ∨ w.phase = .last

instance (w : Writer M) : Decidable w.adds := inferInstanceAs (Decidable (_ ∨ _))

inductive Step : Session M → Session M → Prop where
  | add {s : Session M} {p : ℕ} {w : Writer M} {c : Channel M} {m : M} {rest : List M} (hw : s.writers[p]? = some w)
      (hadds : w.adds) (hm : w.pending = m :: rest) (hc : s.channels[w.channel]? = some c) :
      Step s { s with
        channels := s.channels.set w.channel { c with stored := c.stored ++ [m] }
        writers := s.writers.set p { w with pending := rest, phase := .adding, attempts := w.attempts ++ [(m, true)] } }
  | refuse {s : Session M} {p : ℕ} {w : Writer M} {m : M} {rest : List M} (hw : s.writers[p]? = some w)
      (hadds : w.adds) (hm : w.pending = m :: rest) :
      Step s { s with
        writers := s.writers.set p { w with pending := rest, phase := .adding, attempts := w.attempts ++ [(m, false)] } }
  | retry {s : Session M} {p : ℕ} {w : Writer M} (hw : s.writers[p]? = some w) (hphase : w.phase = .adding) :
      Step s { s with writers := s.writers.set p { w with phase := .last } }
  | create {s : Session M} {p : ℕ} {w : Writer M} (hw : s.writers[p]? = some w) (hphase : w.phase = .adding)
      (hunlocked : s.consumer = .unlocked) :
      Step s { s with
        channels := s.channels ++ [⟨p, true, false, [], .idle⟩]
        writers := s.writers.set p { w with phase := .attaching s.channels.length } }
  | attach {s : Session M} {p new : ℕ} {w : Writer M} {c : Channel M} (hw : s.writers[p]? = some w)
      (hphase : w.phase = .attaching new) (hc : s.channels[w.channel]? = some c) :
      Step s { s with
        channels := s.channels.set w.channel { c with attached := false }
        writers := s.writers.set p { w with channel := new, phase := .last } }
  | close {s : Session M} {p : ℕ} {w : Writer M} {c : Channel M} (hw : s.writers[p]? = some w)
      (hphase : w.phase = .adding) (hdone : w.pending = []) (hc : s.channels[w.channel]? = some c) :
      Step s { s with
        channels := s.channels.set w.channel { c with attached := false }
        writers := s.writers.set p { w with phase := .closed } }
  | lock {s : Session M} (hunlocked : s.consumer = .unlocked) : Step s { s with consumer := .polling 0 }
  | check {s : Session M} {i : ℕ} {c : Channel M} (hpolling : s.consumer = .polling i) (hc : s.channels[i]? = some c)
      (hremoved : c.removed = false) : Step s { s with consumer := .checked i !c.attached }
  | skip {s : Session M} {i : ℕ} {c : Channel M} (hpolling : s.consumer = .polling i) (hc : s.channels[i]? = some c)
      (hremoved : c.removed = true) : Step s { s with consumer := .polling (i + 1) }
  | look {s : Session M} {i : ℕ} {isClosed : Bool} {c : Channel M} (hchecked : s.consumer = .checked i isClosed)
      (hc : s.channels[i]? = some c) (hidle : c.taking = .idle) :
      Step s { s with
        channels := s.channels.set i { c with taking := .looked c.stored.length }
        consumer := .reading i isClosed }
  | leave {s : Session M} {i : ℕ} {isClosed : Bool} {c : Channel M} (hreading : s.consumer = .reading i isClosed)
      (hc : s.channels[i]? = some c) (hlooked : c.taking = .looked 0) :
      Step s { s with channels := s.channels.set i { c with taking := .idle } }
  | copy {s : Session M} {i due : ℕ} {isClosed : Bool} {c : Channel M} (hreading : s.consumer = .reading i isClosed)
      (hc : s.channels[i]? = some c) (hlooked : c.taking = .looked due) :
      Step s { s with
        channels := s.channels.set i { c with taking := .copied due }
        out := s.out ++ [(c.owner, c.stored.take due)] }
  | giveBack {s : Session M} {i due : ℕ} {isClosed : Bool} {c : Channel M} (hreading : s.consumer = .reading i isClosed)
      (hc : s.channels[i]? = some c) (hcopied : c.taking = .copied due) :
      Step s { s with channels := s.channels.set i { c with stored := c.stored.drop due, taking := .idle } }
  | next {s : Session M} {i : ℕ} {isClosed : Bool} {c : Channel M} (hreading : s.consumer = .reading i isClosed)
      (hc : s.channels[i]? = some c) (hidle : c.taking = .idle) :
      Step s { s with
        channels := s.channels.set i { c with removed := isClosed }
        consumer := .polling (i + 1) }
  | unlock {s : Session M} (hpolling : s.consumer = .polling s.channels.length) : Step s { s with consumer := .unlocked }

def start (messages : List (List M)) : Session M where
  channels := messages.mapIdx fun p _ => ⟨p, true, false, [], .idle⟩
  writers := messages.mapIdx fun p ms => ⟨ms, p, .adding, []⟩
  consumer := .unlocked
  out := []

def Channel.live (c : Channel M) : List M :=
  match c.taking with
  | .copied due => c.stored.drop due
  | _ => c.stored

def unreadOf (p : ℕ) (channels : List (Channel M)) : List M :=
  channels.flatMap fun c => if c.owner = p then c.live else []

def Session.unread (s : Session M) (p : ℕ) : List M := unreadOf p s.channels

def Session.output (s : Session M) (p : ℕ) : List M := s.out.flatMap fun batch => if batch.1 = p then batch.2 else []

def Writer.accepted (w : Writer M) : List M := (w.attempts.filter Prod.snd).map Prod.fst

def tags (channels : List (Channel M)) : List (ℕ × Bool) := channels.map fun c => (c.owner, c.attached)

def Held (tags : List (ℕ × Bool)) (p j : ℕ) : Prop := tags[j]? = some (p, true)

def LastOf (tags : List (ℕ × Bool)) (p k : ℕ) : Prop := ∀ j b, tags[j]? = some (p, b) → j ≤ k

def Superseded (tags : List (ℕ × Bool)) (j : ℕ) : Prop :=
  ∃ k p b b', j < k ∧ tags[j]? = some (p, b) ∧ tags[k]? = some (p, b')

def Placed (tags : List (ℕ × Bool)) (p : ℕ) (w : Writer M) : Prop :=
  match w.phase with
  | .adding | .last => Held tags p w.channel ∧ LastOf tags p w.channel
  | .attaching new => Held tags p w.channel ∧ w.channel < new ∧ Held tags p new ∧ LastOf tags p new
  | .closed => True

section Tags

variable {channels : List (Channel M)} {i j k p q : ℕ} {c d : Channel M} {w : Writer M} {b : Bool}

theorem tags_get (hc : channels[i]? = some c) : (tags channels)[i]? = some (c.owner, c.attached) := by
  rw [tags, List.getElem?_map, hc, Option.map_some]

theorem get_of_tags (h : (tags channels)[i]? = some (p, b)) : ∃ c, channels[i]? = some c ∧ c.owner = p ∧ c.attached = b := by
  rw [tags, List.getElem?_map, Option.map_eq_some_iff] at h
  obtain ⟨c, hc, htag⟩ := h
  obtain ⟨rfl, rfl⟩ := Prod.mk.inj htag
  exact ⟨c, hc, rfl, rfl⟩

theorem tags_set (hc : channels[i]? = some c) (howner : d.owner = c.owner) (hattached : d.attached = c.attached) :
    tags (channels.set i d) = tags channels :=
  map_set_same hc (by rw [howner, hattached])

theorem superseded_set (hc : channels[i]? = some c) (howner : d.owner = c.owner) (hattached : d.attached = c.attached) :
    ∀ j, Superseded (tags (channels.set i d)) j ↔ Superseded (tags channels) j := fun j => by
  rw [tags_set hc howner hattached]

theorem tags_detach : tags (channels.set i { c with attached := false }) = (tags channels).set i (c.owner, false) := by
  rw [tags, List.map_set]
  rfl

theorem LastOf.not_superseded {ts : List (ℕ × Bool)} (h : LastOf ts p k) (hk : ts[k]? = some (p, b)) : ¬ Superseded ts k := by
  rintro ⟨j, q, b', b'', hlt, hq, hj⟩
  obtain ⟨rfl, -⟩ := Prod.mk.inj (Option.some.inj (hk.symm.trans hq))
  exact absurd (h j b'' hj) (Nat.not_le.2 hlt)

theorem superseded_detach {ts : List (ℕ × Bool)} (hi : ts[i]? = some (p, b)) :
    Superseded (ts.set i (p, false)) j ↔ Superseded ts j := by
  have hget : ∀ k q : ℕ, (∃ b' : Bool, (ts.set i (p, false))[k]? = some (q, b')) ↔ ∃ b', ts[k]? = some (q, b') := by
    intro k q
    by_cases hik : i = k
    · subst hik
      rw [get_set_self hi, hi]
      constructor
      · rintro ⟨b', hq⟩
        obtain ⟨rfl, -⟩ := Prod.mk.inj (Option.some.inj hq)
        exact ⟨b, rfl⟩
      · rintro ⟨b', hq⟩
        obtain ⟨rfl, -⟩ := Prod.mk.inj (Option.some.inj hq)
        exact ⟨false, rfl⟩
    · rw [List.getElem?_set_ne hik]
  unfold Superseded
  constructor
  · rintro ⟨k, q, b', b'', hlt, hj, hk⟩
    obtain ⟨c', hj⟩ := (hget j q).1 ⟨b', hj⟩
    obtain ⟨c'', hk⟩ := (hget k q).1 ⟨b'', hk⟩
    exact ⟨k, q, c', c'', hlt, hj, hk⟩
  · rintro ⟨k, q, b', b'', hlt, hj, hk⟩
    obtain ⟨c', hj⟩ := (hget j q).2 ⟨b', hj⟩
    obtain ⟨c'', hk⟩ := (hget k q).2 ⟨b'', hk⟩
    exact ⟨k, q, c', c'', hlt, hj, hk⟩

theorem LastOf.detach {ts : List (ℕ × Bool)} (h : LastOf ts q k) (hi : ts[i]? = some (p, b)) :
    LastOf (ts.set i (p, false)) q k := by
  intro j b' hj
  rcases get_set_cases hj with ⟨rfl, htag⟩ | ⟨-, hj⟩
  · obtain ⟨rfl, -⟩ := Prod.mk.inj htag
    exact h j b hi
  · exact h j b' hj

theorem Held.detach {ts : List (ℕ × Bool)} (h : Held ts q j) (hne : i ≠ j) : Held (ts.set i (p, false)) q j := by
  unfold Held
  rw [List.getElem?_set_ne hne]
  exact h

theorem Placed.detach {ts : List (ℕ × Bool)} (h : Placed ts q w) (hi : ts[i]? = some (p, true)) (hne : q ≠ p) :
    Placed (ts.set i (p, false)) q w := by
  have hother : ∀ j, Held ts q j → i ≠ j := by
    rintro j hj rfl
    obtain ⟨rfl, -⟩ := Prod.mk.inj (Option.some.inj (hj.symm.trans hi))
    exact hne rfl
  unfold Placed at h ⊢
  cases hphase : w.phase with
  | adding | last =>
    rw [hphase] at h
    exact ⟨h.1.detach (hother _ h.1), h.2.detach hi⟩
  | attaching new =>
    rw [hphase] at h
    exact ⟨h.1.detach (hother _ h.1), h.2.1, h.2.2.1.detach (hother _ h.2.2.1), h.2.2.2.detach hi⟩
  | closed => trivial

theorem Held.append {ts more : List (ℕ × Bool)} (h : Held ts q j) : Held (ts ++ more) q j := by
  obtain ⟨hlength, -⟩ := List.getElem?_eq_some_iff.1 h
  unfold Held
  rw [List.getElem?_append_left hlength]
  exact h

theorem LastOf.append {ts : List (ℕ × Bool)} (h : LastOf ts q k) (hne : q ≠ p) : LastOf (ts ++ [(p, b)]) q k := by
  intro j b' hj
  rcases Nat.lt_or_ge j ts.length with hlt | hge
  · rw [List.getElem?_append_left hlt] at hj
    exact h j b' hj
  · rw [List.getElem?_append_right hge] at hj
    obtain ⟨hinside, htag⟩ := List.getElem?_eq_some_iff.1 hj
    rw [List.getElem_singleton] at htag
    exact absurd (Prod.mk.inj htag).1.symm hne

theorem Placed.append {ts : List (ℕ × Bool)} (h : Placed ts q w) (hne : q ≠ p) : Placed (ts ++ [(p, b)]) q w := by
  unfold Placed at h ⊢
  cases hphase : w.phase with
  | adding | last =>
    rw [hphase] at h
    exact ⟨h.1.append, h.2.append hne⟩
  | attaching new =>
    rw [hphase] at h
    exact ⟨h.1.append, h.2.1, h.2.2.1.append, h.2.2.2.append hne⟩
  | closed => trivial

end Tags

def Taking.due : Taking → ℕ
  | .idle => 0
  | .looked due | .copied due => due

def Channel.Taken (c : Channel M) : Prop :=
  match c.taking with
  | .idle => c.stored = []
  | .looked due | .copied due => due = c.stored.length

/-- What holds of the channel at an index, which is frozen when nothing is added to it before the consumer is done. -/
structure Fits (consumer : Consumer) (frozen : Prop) (j : ℕ) (c : Channel M) : Prop where
  removed : c.removed = true → c.attached = false ∧ c.stored = []
  idle : c.taking ≠ .idle → ∃ isClosed, consumer = .reading j isClosed
  due : c.taking.due ≤ c.stored.length
  closed : consumer = .checked j true ∨ consumer = .reading j true → c.attached = false
  passed : j < consumer.position → frozen → c.stored = []
  taken : ∀ isClosed, consumer = .reading j isClosed → isClosed = true ∨ frozen → c.Taken

def AllFit (frozen : ℕ → Prop) (s : Session M) : Prop := ∀ j c, s.channels[j]? = some c → Fits s.consumer (frozen j) j c

def AllPlaced (s : Session M) : Prop := ∀ p w, s.writers[p]? = some w → Placed (tags s.channels) p w

section Steps

variable {s u : Session M} {frozen : ℕ → Prop}

theorem held_of_adds (h : AllPlaced s) {p : ℕ} {w : Writer M} (hw : s.writers[p]? = some w) (hadds : w.adds) :
    Held (tags s.channels) p w.channel ∧ LastOf (tags s.channels) p w.channel := by
  have hplaced := h p w hw
  unfold Placed at hplaced
  rcases hadds with hphase | hphase
  all_goals
    rw [hphase] at hplaced
    exact hplaced

theorem owner_of_held {channels : List (Channel M)} {p j : ℕ} {c : Channel M} (h : Held (tags channels) p j)
    (hc : channels[j]? = some c) : c.owner = p ∧ c.attached = true := by
  have htag := tags_get hc
  rw [show (tags channels)[j]? = some (p, true) from h] at htag
  obtain ⟨howner, hattached⟩ := Prod.mk.inj (Option.some.inj htag)
  exact ⟨howner.symm, hattached.symm⟩

theorem Fits.added {consumer : Consumer} {unchanged : Prop} {j : ℕ} {c : Channel M} (h : Fits consumer unchanged j c)
    (hattached : c.attached = true) (hlast : ¬ unchanged) (m : M) :
    Fits consumer unchanged j { c with stored := c.stored ++ [m] } := by
  have hopen : c.attached ≠ false := by
    rw [hattached]
    nofun
  refine ⟨fun hremoved => absurd (h.removed hremoved).1 hopen, h.idle, ?_, h.closed, fun _ hfrozen => absurd hfrozen hlast, ?_⟩
  · have hdue := h.due
    dsimp only
    rw [List.length_append]
    omega
  · rintro isClosed hreading (rfl | hfrozen)
    · exact absurd (h.closed (.inr hreading)) hopen
    · exact absurd hfrozen hlast

theorem Fits.detached {consumer : Consumer} {unchanged : Prop} {j : ℕ} {c : Channel M} (h : Fits consumer unchanged j c) :
    Fits consumer unchanged j { c with attached := false } :=
  ⟨fun hremoved => ⟨rfl, (h.removed hremoved).2⟩, h.idle, h.due, fun _ => rfl, h.passed, h.taken⟩

theorem fits_set {i : ℕ} {c d : Channel M} (h : AllFit frozen s) (hc : s.channels[i]? = some c)
    (hd : Fits s.consumer (frozen i) i c → Fits s.consumer (frozen i) i d) :
    ∀ j e, (s.channels.set i d)[j]? = some e → Fits s.consumer (frozen j) j e := by
  intro j e he
  rcases get_set_cases he with ⟨rfl, rfl⟩ | ⟨-, he⟩
  · exact hd (h j c hc)
  · exact h j e he

/-- Between two channels nothing is being read. -/
theorem taking_idle (h : AllFit frozen s) (hnot : ∀ i isClosed, s.consumer ≠ .reading i isClosed) {j : ℕ} {c : Channel M}
    (hc : s.channels[j]? = some c) : c.taking = .idle := by
  by_contra hne
  obtain ⟨isClosed, hreading⟩ := (h j c hc).idle hne
  exact hnot j isClosed hreading

theorem fits_move (h : AllFit frozen s) (hnot : ∀ i isClosed, s.consumer ≠ .reading i isClosed) {consumer : Consumer}
    (hconsumer : ∀ i isClosed, consumer ≠ .reading i isClosed)
    (hclosed : ∀ j c, s.channels[j]? = some c → consumer = .checked j true → c.attached = false)
    (hpassed : ∀ j c, s.channels[j]? = some c → j < consumer.position → j < s.consumer.position ∨ c.removed = true) :
    AllFit frozen { s with consumer := consumer } := by
  intro j c hc
  have hfit := h j c hc
  have hidle := taking_idle h hnot hc
  refine ⟨hfit.removed, fun hne => absurd hidle hne, hfit.due, ?_, ?_, ?_⟩
  · rintro (hchecked | hreading)
    · exact hclosed j c hc hchecked
    · exact absurd hreading (hconsumer j true)
  · intro hlt hfrozen
    rcases hpassed j c hc hlt with hlt | hremoved
    · exact hfit.passed hlt hfrozen
    · exact (hfit.removed hremoved).2
  · exact fun isClosed hreading => absurd hreading (hconsumer j isClosed)

theorem Fits.left {consumer : Consumer} {unchanged : Prop} {i : ℕ} {c : Channel M} (h : Fits consumer unchanged i c)
    (hlooked : c.taking = .looked 0) : Fits consumer unchanged i { c with taking := .idle } := by
  refine ⟨h.removed, fun hne => absurd rfl hne, Nat.zero_le _, h.closed, h.passed, ?_⟩
  intro isClosed hreading hfrozen
  have htaken := h.taken isClosed hreading hfrozen
  unfold Channel.Taken at htaken
  rw [hlooked] at htaken
  exact List.length_eq_zero_iff.1 htaken.symm

theorem Fits.copied {consumer : Consumer} {unchanged : Prop} {isClosed : Bool} {i due : ℕ} {c : Channel M}
    (h : Fits consumer unchanged i c) (hreading : consumer = .reading i isClosed) (hlooked : c.taking = .looked due) :
    Fits consumer unchanged i { c with taking := .copied due } := by
  have hdue := h.due
  rw [hlooked] at hdue
  refine ⟨h.removed, fun _ => ⟨isClosed, hreading⟩, hdue, h.closed, h.passed, ?_⟩
  intro isClosed' hreading' hfrozen
  have htaken := h.taken isClosed' hreading' hfrozen
  unfold Channel.Taken at htaken
  rw [hlooked] at htaken
  exact htaken

theorem Fits.givenBack {consumer : Consumer} {unchanged : Prop} {isClosed : Bool} {i due : ℕ} {c : Channel M}
    (h : Fits consumer unchanged i c) (hreading : consumer = .reading i isClosed) (hcopied : c.taking = .copied due) :
    Fits consumer unchanged i { c with stored := c.stored.drop due, taking := .idle } := by
  refine ⟨fun hremoved => ?_, fun hne => absurd rfl hne, Nat.zero_le _, h.closed, fun hlt => ?_, ?_⟩
  · obtain ⟨hattached, hstored⟩ := h.removed hremoved
    refine ⟨hattached, ?_⟩
    dsimp only
    rw [hstored, List.drop_nil]
  · rw [hreading] at hlt
    exact absurd hlt (Nat.lt_irrefl i)
  · intro isClosed' hreading' hfrozen
    have htaken := h.taken isClosed' hreading' hfrozen
    unfold Channel.Taken at htaken
    rw [hcopied] at htaken
    dsimp only at htaken
    change c.stored.drop due = []
    rw [htaken, List.drop_length]

theorem fits_create {p : ℕ} (h : AllFit frozen s) (hunlocked : s.consumer = .unlocked) :
    AllFit frozen { s with channels := s.channels ++ [⟨p, true, false, [], .idle⟩] } := by
  intro j c hc
  dsimp only at hc ⊢
  rcases Nat.lt_or_ge j s.channels.length with hlt | hge
  · rw [List.getElem?_append_left hlt] at hc
    exact h j c hc
  · rw [List.getElem?_append_right hge] at hc
    obtain ⟨hinside, rfl⟩ := List.getElem?_eq_some_iff.1 hc
    rw [List.getElem_singleton, hunlocked]
    refine ⟨nofun, fun hne => absurd rfl hne, Nat.le_refl _, ?_, fun hlt => absurd hlt (Nat.not_lt_zero j), nofun⟩
    rintro (hchecked | hreading)
    · cases hchecked
    · cases hreading

theorem fits_check {i : ℕ} {c : Channel M} (h : AllFit frozen s) (hpolling : s.consumer = .polling i)
    (hc : s.channels[i]? = some c) : AllFit frozen { s with consumer := .checked i !c.attached } := by
  refine fits_move h (by rw [hpolling]; nofun) nofun ?_ ?_
  · intro j d hd hchecked
    obtain ⟨rfl, hopen⟩ := Consumer.checked.inj hchecked
    obtain rfl := Option.some.inj (hc.symm.trans hd)
    rwa [Bool.not_eq_true'] at hopen
  · intro j d hd hlt
    rw [hpolling]
    exact .inl hlt

theorem fits_skip {i : ℕ} {c : Channel M} (h : AllFit frozen s) (hpolling : s.consumer = .polling i)
    (hc : s.channels[i]? = some c) (hremoved : c.removed = true) : AllFit frozen { s with consumer := .polling (i + 1) } := by
  refine fits_move h (by rw [hpolling]; nofun) nofun (by rintro j c hc hchecked; cases hchecked) ?_
  intro j d hd hlt
  rw [hpolling]
  rcases Nat.lt_succ_iff_lt_or_eq.1 hlt with hlt | rfl
  · exact .inl hlt
  · obtain rfl := Option.some.inj (hc.symm.trans hd)
    exact .inr hremoved

theorem fits_look {i : ℕ} {isClosed : Bool} {c : Channel M} (h : AllFit frozen s) (hchecked : s.consumer = .checked i isClosed)
    (hc : s.channels[i]? = some c) :
    AllFit frozen { s with
      channels := s.channels.set i { c with taking := .looked c.stored.length }
      consumer := .reading i isClosed } := by
  have hnot : ∀ j isClosed, s.consumer ≠ .reading j isClosed := by
    rw [hchecked]
    nofun
  intro j d hd
  dsimp only at hd ⊢
  rcases get_set_cases hd with ⟨rfl, rfl⟩ | ⟨hne, hd⟩
  · have hfit := h j c hc
    refine ⟨hfit.removed, fun _ => ⟨isClosed, rfl⟩, Nat.le_refl _, ?_, fun hlt => absurd hlt (Nat.lt_irrefl j), fun _ _ _ => rfl⟩
    rintro (hc' | hreading)
    · cases hc'
    · obtain ⟨-, rfl⟩ := Consumer.reading.inj hreading
      exact hfit.closed (.inl hchecked)
  · have hfit := h j d hd
    refine ⟨hfit.removed, fun hbusy => absurd (taking_idle h hnot hd) hbusy, hfit.due, ?_, ?_, ?_⟩
    · rintro (hc' | hreading)
      · cases hc'
      · exact absurd (Consumer.reading.inj hreading).1.symm hne
    · intro hlt
      refine hfit.passed ?_
      rw [hchecked]
      exact hlt
    · intro isClosed' hreading
      exact absurd (Consumer.reading.inj hreading).1.symm hne

theorem fits_next {i : ℕ} {isClosed : Bool} {c : Channel M} (h : AllFit frozen s) (hreading : s.consumer = .reading i isClosed)
    (hc : s.channels[i]? = some c) (hidle : c.taking = .idle) :
    AllFit frozen { s with
      channels := s.channels.set i { c with removed := isClosed }
      consumer := .polling (i + 1) } := by
  intro j d hd
  dsimp only at hd ⊢
  rcases get_set_cases hd with ⟨rfl, rfl⟩ | ⟨hne, hd⟩
  · have hfit := h j c hc
    have hempty : isClosed = true ∨ frozen j → c.stored = [] := by
      intro hfrozen
      have htaken := hfit.taken isClosed hreading hfrozen
      unfold Channel.Taken at htaken
      rwa [hidle] at htaken
    refine ⟨?_, fun hbusy => absurd hidle hbusy, hfit.due, ?_, fun _ hfrozen => hempty (.inr hfrozen), nofun⟩
    · rintro rfl
      exact ⟨hfit.closed (.inr hreading), hempty (.inl rfl)⟩
    · rintro (hchecked | hchecked) <;> cases hchecked
  · have hfit := h j d hd
    refine ⟨hfit.removed, fun hbusy => ?_, hfit.due, ?_, ?_, nofun⟩
    · obtain ⟨isClosed', hreading'⟩ := hfit.idle hbusy
      rw [hreading] at hreading'
      exact absurd (Consumer.reading.inj hreading').1.symm hne
    · rintro (hchecked | hchecked) <;> cases hchecked
    · intro hlt
      refine hfit.passed ?_
      rw [hreading]
      exact Nat.lt_of_le_of_ne (Nat.lt_succ_iff.1 hlt) hne

/-- From the first place on the consumer has passed no channel. -/
theorem fits_back {consumer : Consumer} (h : AllFit frozen s) (hnot : ∀ i isClosed, s.consumer ≠ .reading i isClosed)
    (hconsumer : consumer = .polling 0 ∨ consumer = .unlocked) : AllFit frozen { s with consumer := consumer } := by
  rcases hconsumer with rfl | rfl
  all_goals
    refine fits_move h hnot nofun (by rintro j c hc hchecked; cases hchecked) ?_
    intro j c hc hlt
    exact absurd hlt (Nat.not_lt_zero j)

theorem fits_step (hadd : ∀ (p : ℕ) (w : Writer M) (c : Channel M), s.writers[p]? = some w → w.adds → w.pending ≠ [] → s.channels[w.channel]? = some c →
    c.attached = true ∧ ¬ frozen w.channel) (h : AllFit frozen s) (hs : Step s u) : AllFit frozen u := by
  cases hs with
  | @add p w c m rest hw hadds hm hc =>
    obtain ⟨hattached, hlast⟩ := hadd p w c hw hadds (by rw [hm]; exact List.cons_ne_nil m rest) hc
    exact fits_set h hc fun hfit => hfit.added hattached hlast m
  | refuse | retry => exact h
  | create hw hphase hunlocked => exact fits_create h hunlocked
  | attach hw hphase hc => exact fits_set h hc fun hfit => hfit.detached
  | close hw hphase hdone hc => exact fits_set h hc fun hfit => hfit.detached
  | lock hunlocked => exact fits_back h (by rw [hunlocked]; nofun) (.inl rfl)
  | check hpolling hc hremoved => exact fits_check h hpolling hc
  | skip hpolling hc hremoved => exact fits_skip h hpolling hc hremoved
  | look hchecked hc hidle => exact fits_look h hchecked hc
  | leave hreading hc hlooked => exact fits_set h hc fun hfit => hfit.left hlooked
  | copy hreading hc hlooked => exact fits_set h hc fun hfit => hfit.copied hreading hlooked
  | giveBack hreading hc hcopied => exact fits_set h hc fun hfit => hfit.givenBack hreading hcopied
  | next hreading hc hidle => exact fits_next h hreading hc hidle
  | unlock hpolling => exact fits_back h (by rw [hpolling]; nofun) (.inr rfl)

theorem placed_set {p : ℕ} {w : Writer M} {ts : List (ℕ × Bool)} (h : AllPlaced s)
    (hother : ∀ q (v : Writer M), q ≠ p → Placed (tags s.channels) q v → Placed ts q v) (hw : Placed ts p w) :
    ∀ q v, (s.writers.set p w)[q]? = some v → Placed ts q v := by
  intro q v hv
  rcases get_set_cases hv with ⟨rfl, rfl⟩ | ⟨hne, hv⟩
  · exact hw
  · exact hother q v hne (h q v hv)

theorem placed_step (h : AllPlaced s) (hs : Step s u) : AllPlaced u := by
  cases hs with
  | @add p w c m rest hw hadds hm hc =>
    have hplaced := held_of_adds h hw hadds
    unfold AllPlaced
    dsimp only
    rw [tags_set (d := { c with stored := c.stored ++ [m] }) hc rfl rfl]
    exact placed_set h (fun q v _ hv => hv) hplaced
  | @refuse p w m rest hw hadds hm =>
    have hplaced := held_of_adds h hw hadds
    exact placed_set h (fun q v _ hv => hv) hplaced
  | @retry p w hw hphase =>
    have hplaced := held_of_adds h hw (.inl hphase)
    exact placed_set h (fun q v _ hv => hv) hplaced
  | @create p w hw hphase hunlocked =>
    obtain ⟨hheld, hlast⟩ := held_of_adds h hw (.inl hphase)
    have htags : tags (s.channels ++ [⟨p, true, false, [], .idle⟩]) = tags s.channels ++ [(p, true)] := by
      rw [tags, List.map_append]
      rfl
    have hlength : (tags s.channels).length = s.channels.length := List.length_map _
    obtain ⟨hinside, -⟩ := List.getElem?_eq_some_iff.1 hheld
    unfold AllPlaced
    dsimp only
    rw [htags]
    refine placed_set h (fun q v hne hv => hv.append hne) ⟨hheld.append, hlength ▸ hinside, ?_, ?_⟩
    · unfold Held
      rw [List.getElem?_append_right (Nat.le_of_eq hlength), hlength, Nat.sub_self]
      rfl
    · intro j b hj
      obtain ⟨hlt, -⟩ := List.getElem?_eq_some_iff.1 hj
      rw [List.length_append, hlength] at hlt
      exact Nat.lt_succ_iff.1 hlt
  | @attach p new w c hw hphase hc =>
    have hplaced := h p w hw
    unfold Placed at hplaced
    rw [hphase] at hplaced
    obtain ⟨hheld, hlt, hnew, hlast⟩ := hplaced
    obtain ⟨howner, -⟩ := owner_of_held hheld hc
    unfold AllPlaced
    dsimp only
    rw [tags_detach, howner]
    exact placed_set h (fun q v hne hv => hv.detach hheld hne)
      ⟨hnew.detach (Nat.ne_of_lt hlt), hlast.detach hheld⟩
  | @close p w c hw hphase hdone hc =>
    obtain ⟨hheld, -⟩ := held_of_adds h hw (.inl hphase)
    obtain ⟨howner, -⟩ := owner_of_held hheld hc
    unfold AllPlaced
    dsimp only
    rw [tags_detach, howner]
    exact placed_set h (fun q v hne hv => hv.detach hheld hne) trivial
  | lock | check | skip | unlock => exact h
  | @look i isClosed c hchecked hc hidle =>
    unfold AllPlaced
    dsimp only
    rw [tags_set (d := { c with taking := .looked c.stored.length }) hc rfl rfl]
    exact h
  | @leave i isClosed c hreading hc hlooked =>
    unfold AllPlaced
    dsimp only
    rw [tags_set (d := { c with taking := .idle }) hc rfl rfl]
    exact h
  | @copy i due isClosed c hreading hc hlooked =>
    unfold AllPlaced
    dsimp only
    rw [tags_set (d := { c with taking := .copied due }) hc rfl rfl]
    exact h
  | @giveBack i due isClosed c hreading hc hcopied =>
    unfold AllPlaced
    dsimp only
    rw [tags_set (d := { c with stored := c.stored.drop due, taking := .idle }) hc rfl rfl]
    exact h
  | @next i isClosed c hreading hc hidle =>
    unfold AllPlaced
    dsimp only
    rw [tags_set (d := { c with removed := isClosed }) hc rfl rfl]
    exact h

/-- No channel is superseded while the consumer goes over them. -/
theorem superseded_step (hs : Step s u) :
    u.consumer = .unlocked ∨ ∀ j, Superseded (tags u.channels) j ↔ Superseded (tags s.channels) j := by
  cases hs with
  | create hw hphase hunlocked => exact .inl hunlocked
  | attach hw hphase hc | close hw hphase hdone hc =>
    right
    intro j
    dsimp only
    rw [tags_detach]
    exact superseded_detach (tags_get hc)
  | refuse | retry | lock | check | skip | unlock => exact .inr fun j => Iff.rfl
  | add hw hadds hm hc => exact .inr (superseded_set hc rfl rfl)
  | look hchecked hc hidle => exact .inr (superseded_set hc rfl rfl)
  | leave hreading hc hlooked => exact .inr (superseded_set hc rfl rfl)
  | copy hreading hc hlooked => exact .inr (superseded_set hc rfl rfl)
  | giveBack hreading hc hcopied => exact .inr (superseded_set hc rfl rfl)
  | next hreading hc hidle => exact .inr (superseded_set hc rfl rfl)

/-- A superseded channel is frozen. -/
theorem superseded_fits_step (hplaced : AllPlaced s) (h : AllFit (Superseded (tags s.channels)) s) (hs : Step s u) :
    AllFit (Superseded (tags u.channels)) u := by
  have hfits : AllFit (Superseded (tags s.channels)) u := by
    refine fits_step (fun p w c hw hadds _ hc => ?_) h hs
    obtain ⟨hheld, hlast⟩ := held_of_adds hplaced hw hadds
    exact ⟨(owner_of_held hheld hc).2, hlast.not_superseded hheld⟩
  intro j c hc
  have hfit := hfits j c hc
  rcases superseded_step hs with hunlocked | hsame
  · rw [hunlocked] at hfit ⊢
    exact ⟨hfit.removed, hfit.idle, hfit.due, hfit.closed, fun hlt => absurd hlt (Nat.not_lt_zero j), nofun⟩
  · rw [hsame j]
    exact hfit

def AllAccounted (s : Session M) : Prop := ∀ p w, s.writers[p]? = some w → w.accepted = s.output p ++ s.unread p

theorem unread_set {channels : List (Channel M)} {i : ℕ} {c d : Channel M} (hc : channels[i]? = some c)
    (howner : d.owner = c.owner) (hlive : d.live = c.live) (p : ℕ) : unreadOf p (channels.set i d) = unreadOf p channels := by
  have hsame : (if d.owner = p then d.live else []) = if c.owner = p then c.live else [] := by rw [howner, hlive]
  unfold unreadOf
  rw [List.flatMap_def, map_set_same hc hsame, ← List.flatMap_def]

theorem unread_nil {channels : List (Channel M)} {p : ℕ} (h : ∀ c ∈ channels, c.owner = p → c.live = []) :
    unreadOf p channels = [] := by
  rw [unreadOf, List.flatMap_eq_nil_iff]
  intro c hc
  split_ifs with howner
  · exact h c hc howner
  · rfl

/-- The channels after the last one of a writer are not its own. -/
theorem unread_after {p k : ℕ} (hlast : LastOf (tags s.channels) p k) : unreadOf p (s.channels.drop (k + 1)) = [] := by
  refine unread_nil fun c hc howner => ?_
  obtain ⟨j, hj⟩ := List.mem_iff_getElem?.1 hc
  rw [List.getElem?_drop] at hj
  have htag := tags_get hj
  rw [howner] at htag
  have hle := hlast _ _ htag
  omega

/-- The consumer has emptied the earlier channels of the writer whose channel it is reading. -/
theorem unread_before (hfit : AllFit (Superseded (tags s.channels)) s) {i : ℕ} {isClosed : Bool} {c : Channel M} (hreading : s.consumer = .reading i isClosed)
    (hc : s.channels[i]? = some c) : unreadOf c.owner (s.channels.take i) = [] := by
  refine unread_nil fun d hd howner => ?_
  obtain ⟨j, hj⟩ := List.mem_iff_getElem?.1 hd
  rw [List.getElem?_take] at hj
  split_ifs at hj with hlt
  have htag := tags_get hj
  rw [howner] at htag
  have hempty : d.stored = [] := by
    refine (hfit j d hj).passed ?_ ⟨i, c.owner, _, _, hlt, htag, tags_get hc⟩
    rw [hreading]
    exact hlt
  unfold Channel.live
  rw [hempty]
  cases d.taking with
  | copied due => exact List.drop_nil
  | _ => rfl

theorem accounted_writers {p : ℕ} {w v : Writer M} (h : AllAccounted s) (hw : s.writers[p]? = some w)
    (haccepted : v.accepted = w.accepted) :
    ∀ q x, (s.writers.set p v)[q]? = some x → x.accepted = s.output q ++ s.unread q := by
  intro q x hx
  rcases get_set_cases hx with ⟨rfl, rfl⟩ | ⟨-, hx⟩
  · rw [haccepted]
    exact h q w hw
  · exact h q x hx

theorem accounted_channel {i : ℕ} {c d : Channel M} {consumer : Consumer} (h : AllAccounted s) (hc : s.channels[i]? = some c)
    (howner : d.owner = c.owner) (hlive : d.live = c.live) :
    AllAccounted { s with channels := s.channels.set i d, consumer := consumer } := by
  intro q x hx
  change x.accepted = s.output q ++ unreadOf q (s.channels.set i d)
  rw [unread_set hc howner hlive]
  exact h q x hx

theorem accounted_detach {p : ℕ} {w v : Writer M} {c : Channel M} (h : AllAccounted s) (hw : s.writers[p]? = some w)
    (hc : s.channels[w.channel]? = some c) (haccepted : v.accepted = w.accepted) :
    AllAccounted { s with
      channels := s.channels.set w.channel { c with attached := false }
      writers := s.writers.set p v } := by
  intro q x hx
  change x.accepted = s.output q ++ unreadOf q (s.channels.set w.channel { c with attached := false })
  rw [unread_set (d := { c with attached := false }) hc rfl rfl]
  exact accounted_writers h hw haccepted q x hx

theorem accounted_create {p : ℕ} {w v : Writer M} (h : AllAccounted s) (hw : s.writers[p]? = some w)
    (haccepted : v.accepted = w.accepted) :
    AllAccounted { s with
      channels := s.channels ++ [⟨p, true, false, [], .idle⟩]
      writers := s.writers.set p v } := by
  have hnew : ∀ q, unreadOf q (s.channels ++ [⟨p, true, false, [], .idle⟩]) = unreadOf q s.channels := by
    intro q
    unfold unreadOf
    rw [List.flatMap_append, List.flatMap_singleton]
    have hempty : Channel.live (⟨p, true, false, [], .idle⟩ : Channel M) = [] := rfl
    rw [hempty, ite_self, List.append_nil]
  intro q x hx
  change x.accepted = s.output q ++ unreadOf q (s.channels ++ [⟨p, true, false, [], .idle⟩])
  rw [hnew]
  exact accounted_writers h hw haccepted q x hx

theorem unread_other {channels : List (Channel M)} {i q : ℕ} {c d : Channel M} (hc : channels[i]? = some c)
    (howner : d.owner = c.owner) (hforeign : ¬ c.owner = q) : unreadOf q (channels.set i d) = unreadOf q channels := by
  unfold unreadOf
  rw [flatMap_set _ hc, flatMap_split _ hc, howner, if_neg hforeign, if_neg hforeign]

theorem live_append {c : Channel M} (hdue : c.taking.due ≤ c.stored.length) (m : M) :
    Channel.live { c with stored := c.stored ++ [m] } = c.live ++ [m] := by
  unfold Channel.live
  dsimp only
  cases htaking : c.taking with
  | copied due =>
    rw [htaking] at hdue
    exact List.drop_append_of_le_length hdue
  | _ => rfl

theorem unread_last {q i : ℕ} {c : Channel M} (hlast : LastOf (tags s.channels) q i) (hc : s.channels[i]? = some c)
    (howner : c.owner = q) : s.unread q = unreadOf q (s.channels.take i) ++ c.live := by
  have hafter := unread_after hlast
  unfold Session.unread
  unfold unreadOf at hafter ⊢
  rw [flatMap_split _ hc, hafter, if_pos howner, List.append_nil]

theorem unread_last_set {q i : ℕ} {c d : Channel M} (hlast : LastOf (tags s.channels) q i) (hc : s.channels[i]? = some c)
    (howner : d.owner = q) : unreadOf q (s.channels.set i d) = unreadOf q (s.channels.take i) ++ d.live := by
  have hafter := unread_after hlast
  unfold unreadOf at hafter ⊢
  rw [flatMap_set _ hc, hafter, if_pos howner, List.append_nil]

/-- What a writer adds comes behind all that is due to it. -/
theorem accounted_add {p : ℕ} {w : Writer M} {c : Channel M} {m : M} {rest : List M} (hplaced : AllPlaced s)
    (hfit : AllFit (Superseded (tags s.channels)) s) (h : AllAccounted s) (hw : s.writers[p]? = some w) (hadds : w.adds)
    (hc : s.channels[w.channel]? = some c) :
    AllAccounted { s with
      channels := s.channels.set w.channel { c with stored := c.stored ++ [m] }
      writers := s.writers.set p { w with pending := rest, phase := .adding, attempts := w.attempts ++ [(m, true)] } } := by
  obtain ⟨hheld, hlast⟩ := held_of_adds hplaced hw hadds
  obtain ⟨howner, -⟩ := owner_of_held hheld hc
  intro q x hx
  change x.accepted = s.output q ++ unreadOf q (s.channels.set w.channel { c with stored := c.stored ++ [m] })
  rcases get_set_cases hx with ⟨rfl, rfl⟩ | ⟨hne, hx⟩
  · have haccepted : Writer.accepted { w with pending := rest, phase := .adding, attempts := w.attempts ++ [(m, true)] } =
        w.accepted ++ [m] := by
      unfold Writer.accepted
      rw [List.filter_append, List.map_append, List.filter_cons_of_pos rfl]
      rfl
    rw [haccepted, h q w hw, unread_last hlast hc howner,
      unread_last_set (d := { c with stored := c.stored ++ [m] }) hlast hc howner, live_append (hfit _ c hc).due,
      List.append_assoc, List.append_assoc]
  · have hforeign : ¬ c.owner = q := by
      rw [howner]
      exact fun hpq => hne hpq.symm
    rw [unread_other (d := { c with stored := c.stored ++ [m] }) hc rfl hforeign]
    exact h q x hx

/-- What is copied out is the first of what is due: the channels before are empty. -/
theorem accounted_copy {i due : ℕ} {isClosed : Bool} {c : Channel M} (hfit : AllFit (Superseded (tags s.channels)) s)
    (h : AllAccounted s) (hreading : s.consumer = .reading i isClosed) (hc : s.channels[i]? = some c)
    (hlooked : c.taking = .looked due) :
    AllAccounted { s with
      channels := s.channels.set i { c with taking := .copied due }
      out := s.out ++ [(c.owner, c.stored.take due)] } := by
  intro q x hx
  have hbefore := h q x hx
  change x.accepted = (s.out ++ [(c.owner, c.stored.take due)]).flatMap (fun batch => if batch.1 = q then batch.2 else []) ++
    unreadOf q (s.channels.set i { c with taking := .copied due })
  rw [List.flatMap_append, List.flatMap_singleton]
  unfold Session.output Session.unread at hbefore
  by_cases howner : c.owner = q
  · have hnothing := unread_before hfit hreading hc
    have hlive : c.live = c.stored := by
      unfold Channel.live
      rw [hlooked]
    rw [howner] at hnothing
    unfold unreadOf at hbefore hnothing ⊢
    rw [flatMap_split _ hc, hnothing, if_pos howner, hlive, List.nil_append] at hbefore
    rw [hbefore, flatMap_set _ hc, hnothing, if_pos howner, if_pos howner, List.nil_append, List.append_assoc,
      ← List.append_assoc (c.stored.take due)]
    change _ = _ ++ (c.stored.take due ++ c.stored.drop due ++ _)
    rw [List.take_append_drop]
  · rw [if_neg howner, List.append_nil, unread_other (d := { c with taking := .copied due }) hc rfl howner]
    exact hbefore

theorem accounted_step (hplaced : AllPlaced s) (hfit : AllFit (Superseded (tags s.channels)) s) (h : AllAccounted s) (hs : Step s u) : AllAccounted u := by
  cases hs with
  | add hw hadds hm hc => exact accounted_add hplaced hfit h hw hadds hc
  | @refuse p w m rest hw hadds hm =>
    refine accounted_writers h hw ?_
    unfold Writer.accepted
    rw [List.filter_append, List.filter_cons_of_neg Bool.false_ne_true, List.filter_nil, List.append_nil]
  | retry hw hphase => exact accounted_writers h hw rfl
  | create hw hphase hunlocked => exact accounted_create h hw rfl
  | attach hw hphase hc => exact accounted_detach h hw hc rfl
  | close hw hphase hdone hc => exact accounted_detach h hw hc rfl
  | lock | check | skip | unlock => exact h
  | look hchecked hc hidle => exact accounted_channel h hc rfl (by unfold Channel.live; rw [hidle])
  | leave hreading hc hlooked => exact accounted_channel h hc rfl (by unfold Channel.live; rw [hlooked])
  | copy hreading hc hlooked => exact accounted_copy hfit h hreading hc hlooked
  | giveBack hreading hc hcopied => exact accounted_channel h hc rfl (by unfold Channel.live; rw [hcopied])
  | next hreading hc hidle => exact accounted_channel h hc rfl rfl

end Steps

structure Inv (messages : List (List M)) (s : Session M) : Prop where
  placed : AllPlaced s
  fit : AllFit (Superseded (tags s.channels)) s
  accounted : AllAccounted s
  attempted : s.writers.map (fun w => w.attempts.map Prod.fst ++ w.pending) = messages

section Runs

variable {messages : List (List M)} {s u : Session M}

theorem start_channel {j : ℕ} {c : Channel M} (h : (start messages).channels[j]? = some c) :
    c = ⟨j, true, false, [], .idle⟩ := by
  unfold start at h
  dsimp only at h
  rw [List.getElem?_mapIdx] at h
  obtain ⟨ms, -, rfl⟩ := Option.map_eq_some_iff.1 h
  rfl

theorem inv_start (messages : List (List M)) : Inv messages (start messages) := by
  refine ⟨?_, ?_, ?_, ?_⟩
  · intro p w hw
    unfold start at hw
    dsimp only at hw
    rw [List.getElem?_mapIdx] at hw
    obtain ⟨ms, hms, rfl⟩ := Option.map_eq_some_iff.1 hw
    refine ⟨?_, fun j b hj => ?_⟩
    · have hc : (start messages).channels[p]? = some ⟨p, true, false, [], .idle⟩ := by
        unfold start
        dsimp only
        rw [List.getElem?_mapIdx, hms]
        rfl
      exact tags_get hc
    · obtain ⟨c, hc, howner, -⟩ := get_of_tags hj
      rw [start_channel hc] at howner
      exact Nat.le_of_eq howner
  · intro j c hc
    rw [start_channel hc]
    exact ⟨nofun, fun hbusy => absurd rfl hbusy, Nat.le_refl _, nofun, fun hlt => absurd hlt (Nat.not_lt_zero j), nofun⟩
  · intro p w hw
    unfold start at hw
    dsimp only at hw
    rw [List.getElem?_mapIdx] at hw
    obtain ⟨ms, -, rfl⟩ := Option.map_eq_some_iff.1 hw
    refine (unread_nil fun c hc _ => ?_).symm
    obtain ⟨j, hj⟩ := List.mem_iff_getElem?.1 hc
    rw [start_channel hj]
    rfl
  · unfold start
    dsimp only
    refine List.ext_getElem? fun i => ?_
    rw [List.getElem?_map, List.getElem?_mapIdx, Option.map_map]
    exact Option.map_id'

theorem attempted_step (hs : Step s u) :
    u.writers.map (fun w => w.attempts.map Prod.fst ++ w.pending) =
      s.writers.map (fun w => w.attempts.map Prod.fst ++ w.pending) := by
  cases hs with
  | add hw hadds hm hc =>
    refine map_set_same hw ?_
    dsimp only
    rw [hm, List.map_append, List.append_assoc]
    rfl
  | refuse hw hadds hm =>
    refine map_set_same hw ?_
    dsimp only
    rw [hm, List.map_append, List.append_assoc]
    rfl
  | retry hw hphase => exact map_set_same hw rfl
  | create hw hphase hunlocked => exact map_set_same hw rfl
  | attach hw hphase hc => exact map_set_same hw rfl
  | close hw hphase hdone hc => exact map_set_same hw rfl
  | _ => rfl

theorem inv_step (h : Inv messages s) (hs : Step s u) : Inv messages u :=
  ⟨placed_step h.placed hs, superseded_fits_step h.placed h.fit hs, accounted_step h.placed h.fit h.accounted hs,
    (attempted_step hs).trans h.attempted⟩

/-- The writers have nothing to add, and the consumer has emptied what it has passed. -/
structure Emptying (s : Session M) : Prop where
  quiet : ∀ w ∈ s.writers, w.pending = []
  fit : AllFit (fun _ => True) s
  emptied : s.consumer = .unlocked → ∀ c ∈ s.channels, c.stored = []

theorem quiet_step (h : ∀ w ∈ s.writers, w.pending = []) (hs : Step s u) : ∀ w ∈ u.writers, w.pending = [] := by
  have hset : ∀ {p : ℕ} {w v : Writer M}, s.writers[p]? = some w → v.pending = w.pending →
      ∀ x ∈ s.writers.set p v, x.pending = [] := by
    intro p w v hw hv x hx
    rcases List.mem_or_eq_of_mem_set hx with hx | rfl
    · exact h x hx
    · rw [hv]
      exact h w (List.mem_of_getElem? hw)
  cases hs with
  | add hw hadds hm hc | refuse hw hadds hm =>
    have hnone := h _ (List.mem_of_getElem? hw)
    rw [hm] at hnone
    cases hnone
  | retry hw hphase => exact hset hw rfl
  | create hw hphase hunlocked => exact hset hw rfl
  | attach hw hphase hc => exact hset hw rfl
  | close hw hphase hdone hc => exact hset hw rfl
  | _ => exact h

theorem emptying_step (h : Emptying s) (hs : Step s u) : Emptying u := by
  have hfit : AllFit (fun _ => True) u := by
    refine fits_step (fun p w c hw _ hpending _ => ?_) h.fit hs
    exact absurd (h.quiet w (List.mem_of_getElem? hw)) hpending
  refine ⟨quiet_step h.quiet hs, hfit, ?_⟩
  have hkept : ∀ {i : ℕ} {c d : Channel M}, s.channels[i]? = some c → d.stored = c.stored → s.consumer = .unlocked →
      ∀ x ∈ s.channels.set i d, x.stored = [] := by
    intro i c d hc hd hunlocked x hx
    rcases List.mem_or_eq_of_mem_set hx with hx | rfl
    · exact h.emptied hunlocked x hx
    · rw [hd]
      exact h.emptied hunlocked c (List.mem_of_getElem? hc)
  cases hs with
  | add hw hadds hm hc =>
    have hnone := h.quiet _ (List.mem_of_getElem? hw)
    rw [hm] at hnone
    cases hnone
  | refuse | retry => exact h.emptied
  | create hw hphase hunlocked =>
    intro _ c hc
    rcases List.mem_append.1 hc with hc | hc
    · exact h.emptied hunlocked c hc
    · rw [List.mem_singleton.1 hc]
  | attach hw hphase hc | close hw hphase hdone hc => exact hkept hc rfl
  | lock | check | skip | look | next => nofun
  | leave hreading hc hlooked | copy hreading hc hlooked | giveBack hreading hc hcopied =>
    intro hunlocked
    rw [hreading] at hunlocked
    cases hunlocked
  | unlock hpolling =>
    intro _ c hc
    obtain ⟨j, hj⟩ := List.mem_iff_getElem?.1 hc
    obtain ⟨hlength, -⟩ := List.getElem?_eq_some_iff.1 hj
    refine (h.fit j c hj).passed ?_ trivial
    rw [hpolling]
    exact hlength

/-- A consume that begins when the writers have nothing to add leaves nothing in the channels. -/
theorem emptied_after (hinv : Inv messages s) (hunlocked : s.consumer = .unlocked) (hquiet : ∀ w ∈ s.writers, w.pending = [])
    (h : Relation.ReflTransGen Step { s with consumer := .polling 0 } u) (hend : u.consumer = .unlocked) :
    ∀ c ∈ u.channels, c.stored = [] := by
  have hbegin : Emptying { s with consumer := .polling 0 } := by
    refine ⟨hquiet, fun j c hc => ?_, nofun⟩
    have hfit := superseded_fits_step hinv.placed hinv.fit (.lock hunlocked) j c hc
    exact ⟨hfit.removed, hfit.idle, hfit.due, hfit.closed, fun hlt => absurd hlt (Nat.not_lt_zero j), nofun⟩
  have hall : ∀ {v : Session M}, Relation.ReflTransGen Step { s with consumer := .polling 0 } v → Emptying v := by
    intro v hv
    induction hv with
    | refl => exact hbegin
    | tail _ hs ih => exact emptying_step ih hs
  exact (hall h).emptied hend

end Runs

end LoggerBenchmarks.BinlogSession
