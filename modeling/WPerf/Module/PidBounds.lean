import WPerf.Module.TxCounts

/-!
# Numbers the pid filter does not check

The filter write hands every number of its text to `bitmap_set` without
comparing it with the limit. The start argument there has 32 bits, so a large
number writes behind the bitmap or sets the bit of another pid.
-/

namespace WPerf.Module

open WPerf.Library

set_option autoImplicit false

def exceedsLimit (token : List Char) : Bool :=
  match kstrtoul token with
  | .ok pid => decide (pidMaxLimit ≤ pid.toNat)
  | .error errno => errno == .erange

theorem exceeds_iff_not_pid (token : List Char) (number : wellFormed token = true) :
    exceedsLimit token = true ↔ ¬isPid token = true := by
  unfold wellFormed at number
  unfold exceedsLimit isPid
  cases value : kstrtoul token with
  | error errno =>
      rw [value] at number
      cases number
  | ok pid => simp

namespace TxStat

/-- The write stays in the bitmap as its token loop does, and rejects exactly
the texts with a malformed token. -/
theorem filter_write_verdict (s : TxStat) (data : List Char) :
    if ∀ token ∈ (filterTokens data).takeWhile wellFormed, inRange token = true then
      ∃ t, s.txStatsFilterWrite true data =
        .ok (if (filterTokens data).all wellFormed then .ok () else .error .einval, t)
    else ∃ fault, s.txStatsFilterWrite true data = .error fault := by
  have loop := set_tokens_ok_iff (strsep (strstrip data)) s.disableTxStatProbes
  change _ ↔ ∀ token ∈ (filterTokens data).takeWhile wellFormed, inRange token = true at loop
  change if _ then ∃ t, (setTokens (strsep (strstrip data)) s.disableTxStatProbes >>= _) = _
    else ∃ fault, (setTokens (strsep (strstrip data)) s.disableTxStatProbes >>= _) = _
  cases ran : setTokens (strsep (strstrip data)) s.disableTxStatProbes with
  | error fault =>
      rw [if_neg]
      · exact ⟨fault, rfl⟩
      · intro inside
        obtain ⟨result, returned⟩ := loop.mpr inside
        rw [ran] at returned
        cases returned
  | ok result =>
      obtain ⟨err, t⟩ := result
      rw [if_pos (loop.mp ⟨_, ran⟩)]
      have spec := set_tokens_spec _ _ _ _ ran
      change if (filterTokens data).all wellFormed then _ else _ at spec
      split_ifs at spec ⊢ with fit
      · rw [spec.1]
        exact ⟨_, rfl⟩
      · rw [spec.1]
        exact ⟨_, rfl⟩

/-- A text is checked as it should be exactly when what it sets before its
first malformed token has bits below the limit, and it names only pids if no
token is malformed. -/
theorem pid_filter_checked_iff (s : TxStat) (ubuf : List Char) (short : ubuf.length < pageSize) :
    (∃ result t, filterWriteGeneric (txStatsFilterWrite true) true ubuf s = .ok (result, t) ∧
        ((∃ token ∈ filterTokens (cString ubuf), exceedsLimit token = true) →
          result = .error .einval)) ↔
      (∀ token ∈ (filterTokens (cString ubuf)).takeWhile wellFormed, inRange token = true) ∧
        ((filterTokens (cString ubuf)).all wellFormed = true →
          ∀ token ∈ filterTokens (cString ubuf), isPid token = true) := by
  have verdict := s.filter_write_verdict (cString ubuf)
  unfold filterWriteGeneric
  rw [if_neg (Nat.not_le.mpr short), if_neg (by decide)]
  by_cases inside : ∀ token ∈ (filterTokens (cString ubuf)).takeWhile wellFormed,
      inRange token = true
  · rw [if_pos inside] at verdict
    obtain ⟨t, ran⟩ := verdict
    rw [ran, and_iff_right inside]
    by_cases fit : (filterTokens (cString ubuf)).all wellFormed = true
    · -- the text is accepted, so it may hold no number above the limit
      rw [if_pos fit]
      have number := List.all_eq_true.mp fit
      constructor
      · rintro ⟨result, after, accepted, checked⟩ _ token member
        by_contra notPid
        have exceeds := (exceeds_iff_not_pid token (number token member)).mpr notPid
        rw [checked ⟨token, member, exceeds⟩] at accepted
        cases accepted
      · intro pids
        refine ⟨.ok ubuf.length, t, rfl, ?_⟩
        rintro ⟨token, member, exceeds⟩
        exact absurd (pids fit token member)
          ((exceeds_iff_not_pid token (number token member)).mp exceeds)
    · rw [if_neg fit]
      exact iff_of_true ⟨.error .einval, t, rfl, fun _ => rfl⟩ fun all => absurd all fit
  · rw [if_neg inside] at verdict
    obtain ⟨fault, ran⟩ := verdict
    rw [ran]
    apply iff_of_false
    · rintro ⟨result, t, returned, _⟩
      cases returned
    · exact fun both => inside both.1

theorem two_pids_checked :
    (∃ result t, filterWriteGeneric (txStatsFilterWrite true) true "1,42\n".toList init =
          .ok (result, t) ∧
        ((∃ token ∈ filterTokens (cString "1,42\n".toList), exceedsLimit token = true) →
          result = .error .einval)) ↔
      (∀ token ∈ (filterTokens (cString "1,42\n".toList)).takeWhile wellFormed,
          inRange token = true) ∧
        ((filterTokens (cString "1,42\n".toList)).all wellFormed = true →
          ∀ token ∈ filterTokens (cString "1,42\n".toList), isPid token = true) :=
  pid_filter_checked_iff init "1,42\n".toList (by decide)

theorem large_pid_not_rejected :
    (∃ fault, filterWriteGeneric (txStatsFilterWrite true) true "4194304".toList init =
      .error fault) ∧
      ∃ t, filterWriteGeneric (txStatsFilterWrite true) true "4294967301".toList init =
        .ok (.ok 10, t) := by
  constructor
  · have verdict := init.filter_write_verdict (cString "4194304".toList)
    rw [if_neg (by decide)] at verdict
    obtain ⟨fault, ran⟩ := verdict
    refine ⟨fault, ?_⟩
    unfold filterWriteGeneric
    rw [if_neg (by decide), if_neg (by decide), ran]
    rfl
  · have verdict := init.filter_write_verdict (cString "4294967301".toList)
    rw [if_pos (by decide)] at verdict
    obtain ⟨t, ran⟩ := verdict
    refine ⟨t, ?_⟩
    unfold filterWriteGeneric
    rw [if_neg (by decide), if_neg (by decide), ran]
    rfl

end TxStat

end WPerf.Module
