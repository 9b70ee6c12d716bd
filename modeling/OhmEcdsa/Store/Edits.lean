import OhmEcdsa.Store.Journal
import OhmEcdsa.Support.Hoare

/-!
# Edits of a journal (`store/persist.rs`)

A journal is the frames of a chain.  The entries number themselves, so entries of one chain
replay in no other order and with none left out; each names the one before it by its hash, so
an edit before an entry that is kept shows there, unless two links hash alike:

    journalReplay bytes = ok entries ↔ Chained entries ∧ bytes = journalBytes entries     (journalReplay_iff)
-/

set_option linter.unusedSectionVars false

namespace OhmEcdsa

open Codec Hoare

/-- The bytes of a journal. -/
def journalBytes (entries : List JournalEntry) : Bytes := entries.flatMap fun e => frame e.encode

def JournalEntry.digest (cr : Crypto) (e : JournalEntry) : Bytes := entryDigest cr e.seq e.op e.id e.prev e.payload

/-! ## Lemmas: bytes -/

theorem JournalEntry.Fits.frame_length {e : JournalEntry} (h : e.Fits) : (frame e.encode).length = 117 := by
  rw [Codec.frame_length]
  simp [JournalEntry.encode, u64Bytes, h.prev, h.payload, h.hash]

theorem journalBytes_append (a b : List JournalEntry) : journalBytes (a ++ b) = journalBytes a ++ journalBytes b :=
  List.flatMap_append

theorem journalBytes_length {entries : List JournalEntry} (h : ∀ e ∈ entries, e.Fits) :
    (journalBytes entries).length = 117 * entries.length := by
  induction entries with
  | nil => rfl
  | cons e entries ih =>
    obtain ⟨he, hrest⟩ := List.forall_mem_cons.mp h
    have hlen := ih hrest
    show (frame e.encode ++ journalBytes entries).length = _
    rw [List.length_append, he.frame_length, hlen, List.length_cons]
    omega

theorem frame_injective {b b' : Bytes} (h : frame b = frame b') : b = b' := by
  unfold frame at h
  exact (List.append_inj h (by rw [bigEndian_length, bigEndian_length])).2

theorem journalBytes_injective {a b : List JournalEntry} (ha : ∀ e ∈ a, e.Fits) (hb : ∀ e ∈ b, e.Fits)
    (h : journalBytes a = journalBytes b) : a = b := by
  induction a generalizing b with
  | nil =>
    have hlen := journalBytes_length hb
    rw [← h] at hlen
    cases b with
    | nil => rfl
    | cons e b => cases hlen
  | cons e a ih =>
    cases b with
    | nil =>
      have hlen := journalBytes_length ha
      rw [h] at hlen
      cases hlen
    | cons e' b =>
      obtain ⟨he, ha⟩ := List.forall_mem_cons.mp ha
      obtain ⟨he', hb⟩ := List.forall_mem_cons.mp hb
      obtain ⟨hframe, hrest⟩ := List.append_inj (show frame e.encode ++ journalBytes a = frame e'.encode ++ journalBytes b
        from h) (he.frame_length.trans he'.frame_length.symm)
      rw [JournalEntry.decode_lawful.injective he he' (frame_injective hframe), ih ha hb hrest]

/-! ## Lemmas: chains -/

section Chain

variable {cr : Crypto} {entries es : List JournalEntry}

namespace Chained

theorem of_snoc {e : JournalEntry} (h : Chained cr (entries ++ [e])) :
    Chained cr entries ∧ e.Fits ∧ e.Follows cr entries := by
  generalize hl : entries ++ [e] = l at h
  cases h with
  | nil => exact absurd hl (by simp)
  | snoc hprev hfits hfollows =>
    obtain ⟨rfl, heq⟩ := List.append_inj' hl rfl
    obtain rfl := List.singleton_inj.mp heq
    exact ⟨hprev, hfits, hfollows⟩

theorem of_append {rest : List JournalEntry} (h : Chained cr (entries ++ rest)) : Chained cr entries := by
  induction rest using List.reverseRecOn with
  | nil => rwa [List.append_nil] at h
  | append_singleton rest e ih =>
    rw [← List.append_assoc] at h
    exact ih h.of_snoc.1

theorem fits (h : Chained cr entries) : ∀ e ∈ entries, e.Fits := by
  induction h with
  | nil => exact fun e he => absurd he List.not_mem_nil
  | snoc hprev hfits hfollows ih =>
    intro e he
    rcases List.mem_append.mp he with he | he
    · exact ih e he
    · rw [List.mem_singleton.mp he]
      exact hfits

theorem hash_eq (h : Chained cr entries) : ∀ e ∈ entries, e.hash = e.digest cr := by
  induction h with
  | nil => exact fun e he => absurd he List.not_mem_nil
  | snoc hprev hfits hfollows ih =>
    intro e he
    rcases List.mem_append.mp he with he | he
    · exact ih e he
    · rw [List.mem_singleton.mp he]
      exact hfollows.hash

/-- An entry's number is its place. -/
theorem seq (h : Chained cr entries) {i : Nat} {e : JournalEntry} (he : entries[i]? = some e) : e.seq = i + 1 := by
  induction h generalizing i e with
  | nil => cases he
  | @snoc entries e' hprev hfits hfollows ih =>
    rcases Nat.lt_or_ge i entries.length with hi | hi
    · rw [List.getElem?_append_left hi] at he
      exact ih he
    · rw [List.getElem?_append_right hi] at he
      obtain ⟨hlt, rfl⟩ := List.getElem?_eq_some_iff.mp he
      rw [List.length_singleton] at hlt
      obtain rfl : i = entries.length := by omega
      simpa using hfollows.seq

end Chained

theorem journalReplay_iff {bytes : Bytes} :
    journalReplay cr bytes = .ok entries ↔ Chained cr entries ∧ bytes = journalBytes entries := by
  constructor
  · intro h
    refine ⟨chained_of_replay h, ?_⟩
    obtain ⟨bodies, ⟨-, rfl⟩, hfold⟩ := (readLog_ok_iff _ _).mp h
    clear h
    induction bodies using List.reverseRecOn generalizing entries with
    | nil =>
      cases hfold
      rfl
    | append_singleton bodies body ih =>
      rw [List.foldlM_append] at hfold
      obtain ⟨before, hbefore, hlast⟩ := ok_of_bind hfold
      rw [List.foldlM_cons] at hlast
      obtain ⟨out, hstep, hout⟩ := ok_of_bind hlast
      obtain rfl : out = entries := Except.ok.inj hout
      obtain ⟨e, -, -, rfl, rfl⟩ := replayEntry_ok_iff.mp hstep
      rw [List.flatMap_append, ih hbefore, journalBytes_append]
      rfl
  · rintro ⟨h, rfl⟩
    induction h with
    | nil => rfl
    | @snoc entries e hprev hfits hfollows ih =>
      rw [journalBytes_append, show journalBytes [e] = frame e.encode from List.append_nil _]
      exact (journalReplay_snoc ih hfits).mp hfollows

/-! ## Lemmas: edits -/

/-- **Rearranged**: entries of a chain that make a chain are its first ones. -/
theorem prefix_of_chained (h : Chained cr entries) (hes : Chained cr es) (hsub : ∀ e ∈ es, e ∈ entries) :
    es <+: entries := by
  rw [List.prefix_iff_getElem?]
  intro i hi
  obtain ⟨j, hj⟩ := List.mem_iff_getElem?.mp (hsub _ (List.getElem_mem hi))
  have hplace := h.seq hj
  rw [hes.seq (List.getElem?_eq_getElem hi)] at hplace
  obtain rfl : i = j := by omega
  exact hj

/-- **Rewritten**: two chains with one end are one chain, unless two of their links hash alike. -/
theorem front_unique {front front' tail : List JournalEntry} (h : Chained cr (front ++ tail))
    (h' : Chained cr (front' ++ tail)) (htail : tail ≠ [])
    (hinj : Set.InjOn (JournalEntry.digest cr) {e | e ∈ front ++ tail ∨ e ∈ front' ++ tail}) : front = front' := by
  obtain ⟨e, rest, rfl⟩ := List.exists_cons_of_ne_nil htail
  clear htail
  have hlength : front.length = front'.length := by
    have hseq := h.seq (i := front.length) (e := e) (by simp)
    rw [h'.seq (i := front'.length) (e := e) (by simp)] at hseq
    omega
  induction front using List.reverseRecOn generalizing front' e rest with
  | nil => exact (List.eq_nil_of_length_eq_zero hlength.symm).symm
  | append_singleton front a ih =>
    obtain rfl | ⟨front', b, rfl⟩ := List.eq_nil_or_concat front'
    · simp at hlength
    -- the kept entry names the one before it
    have hfirst : ∀ l : List JournalEntry, Chained cr (l ++ e :: rest) → e.prev = tipOf l := by
      intro l hl
      rw [show l ++ e :: rest = (l ++ [e]) ++ rest by simp] at hl
      exact hl.of_append.of_snoc.2.2.prev
    have hprev := hfirst _ h
    rw [hfirst _ h', List.concat_eq_append, tipOf_snoc, tipOf_snoc] at hprev
    have ha := h.hash_eq a (by simp)
    have hb := h'.hash_eq b (by simp)
    have hdigest : b.digest cr = a.digest cr := by
      rw [← ha, ← hb, hprev]
    obtain rfl : b = a := hinj (Or.inr (by simp)) (Or.inl (by simp)) hdigest
    rw [List.concat_eq_append] at h' hinj hlength ⊢
    have hshift : ∀ l : List JournalEntry, (l ++ [b]) ++ e :: rest = l ++ b :: e :: rest := by simp
    rw [hshift] at h h'
    rw [hshift, hshift] at hinj
    rw [ih b (e :: rest) h h' hinj (by simpa using hlength)]

/-- A byte string that replays and ends with the last entries of a journal. -/
theorem forged_eq {bytes forged : Bytes} {tail : List JournalEntry} (h : journalReplay cr bytes = .ok entries)
    (htail : tail ≠ []) (hsuffix : tail <:+ entries) (hforged : journalReplay cr (forged ++ journalBytes tail) = .ok es)
    (hinj : Set.InjOn (JournalEntry.digest cr) {e | e ∈ entries ∨ e ∈ es}) : forged ++ journalBytes tail = bytes := by
  obtain ⟨hchain, rfl⟩ := journalReplay_iff.mp h
  obtain ⟨hes, hbytes⟩ := journalReplay_iff.mp hforged
  obtain ⟨front, rfl⟩ := hsuffix
  have hfits : ∀ e ∈ tail, e.Fits := fun e he => hchain.fits e (List.mem_append_right _ he)
  -- every frame has one length, so the kept ones are the last frames of the forgery
  have hlength := congrArg List.length hbytes
  rw [List.length_append, journalBytes_length hfits, journalBytes_length hes.fits] at hlength
  have hcut : es = es.take (es.length - tail.length) ++ es.drop (es.length - tail.length) := (List.take_append_drop _ _).symm
  have hdrop : (es.drop (es.length - tail.length)).length = tail.length := by
    rw [List.length_drop]
    omega
  have hlast : es.drop (es.length - tail.length) = tail := by
    have hdropfits : ∀ e ∈ es.drop (es.length - tail.length), e.Fits := fun e he => hes.fits e (List.mem_of_mem_drop he)
    rw [hcut, journalBytes_append] at hbytes
    refine (journalBytes_injective hfits hdropfits (List.append_inj' hbytes ?_).2).symm
    rw [journalBytes_length hfits, journalBytes_length hdropfits, hdrop]
  rw [hlast] at hcut
  rw [hcut] at hes hinj
  rw [hbytes, front_unique hchain hes htail hinj, ← hcut]

end Chain

end OhmEcdsa
