import AieHlc.Packet.RoundTrip

/-!
# The capacity check of the segment encoder

The encoder asks for room with `s->pw + 5U > cap`, in 32 bits. Up to a capacity
of `2^32 - 4` words the sum cannot wrap and the round trip holds. Above that the
check passes with the buffer full: a run of one-word writes walks `pw` over the
end of the 32-bit range and back to the start of the buffer.

* `segRun_zeros`: a run of one-word writes to offset 0, at any capacity.
* `segment_roundTrip_iff`: the round trip holds exactly below the bound.
-/

namespace AieHlc.Packet

open Function AieHlc.Word AieHlc.Prog

theorem u32_u32_add (a b : ℕ) : u32 (u32 a + b) = u32 (a + b) := by
  unfold u32
  omega

theorem not_continues_zero (s : Seg) : ¬s.continues 0 := by
  rintro ⟨-, h, -⟩
  rw [hdrAddr_eq, hdrBeats_eq, u32] at h
  omega

theorem segWord_start {cap hdr off d : ℕ} {s : Seg} (hroom : u32 (s.pw + 5) ≤ cap) (hc : ¬s.continues off) :
    segWord cap hdr off d s = .ok () (s.start hdr off d) := by
  unfold segWord
  refine bind_ok.2 ⟨s, s, rfl, ?_⟩
  rw [if_neg (by omega), if_neg hc]
  rfl

theorem segWord_extend {cap hdr off d : ℕ} {s : Seg} (hroom : u32 (s.pw + 5) ≤ cap) (hc : s.continues off) :
    segWord cap hdr off d s = .ok () (s.extend d) := by
  unfold segWord
  refine bind_ok.2 ⟨s, s, rfl, ?_⟩
  rw [if_neg (by omega), if_pos hc]
  rfl

theorem start_pw (s : Seg) (hdr off d : ℕ) : (s.start hdr off d).pw = u32 (s.pw + 3) := by
  show u32 (u32 (u32 (s.pw + 1) + 1) + 1) = _
  rw [u32_u32_add, Nat.add_assoc, u32_u32_add]

variable (cap sid : ℕ)

/-- One-word writes to offset 0 are each an access of three words. -/
theorem segRun_zeros : ∀ (n : ℕ) (s : Seg), s.pw < 2 ^ 32 →
    (∀ k < n, u32 (s.pw + 3 * k + 5) ≤ cap) →
    ∃ s', segRun cap sid (List.replicate n ⟨0, [0]⟩) s = .ok () s' ∧ s'.pw = u32 (s.pw + 3 * n) := by
  intro n
  induction n with
  | zero => intro s hs _; exact ⟨s, rfl, (u32_eq hs).symm⟩
  | succ n ih =>
    intro s hs hroom
    set s1 := s.start (cpeStreamHdr sid) 0 0 with hs1
    have hp1 : s1.pw = u32 (s.pw + 3) := start_pw s _ 0 0
    have h1 : segWord cap (cpeStreamHdr sid) 0 0 s = .ok () s1 :=
      segWord_start (hroom 0 (by omega)) (not_continues_zero s)
    have hroom1 : ∀ k < n, u32 (s1.pw + 3 * k + 5) ≤ cap := by
      intro k hk
      have h := hroom (k + 1) (by omega)
      have heq : u32 (s1.pw + 3 * k + 5) = u32 (s.pw + 3 * (k + 1) + 5) := by
        rw [hp1, Nat.add_assoc, u32_u32_add]
        congr 1
        omega
      rwa [heq]
    obtain ⟨s2, h2, hp2⟩ := ih s1 (by rw [hp1]; exact Nat.mod_lt _ (by decide)) hroom1
    refine ⟨s2, ?_, ?_⟩
    · rw [List.replicate_succ]
      exact bind_ok.2 ⟨(), s1, bind_ok.2 ⟨(), s1, h1, rfl⟩, h2⟩
    · rw [hp2, hp1, u32_u32_add]
      congr 1
      omega

/-- Three words to offsets 0, 4 and 8 are one access of five words. -/
theorem segRun_three (p : ℕ → ℕ) (hcap : 9 ≤ cap) :
    ∃ s, rtCpeSegWrite cap sid 0 [0, 0, 0] (rtCpeSegReset p) = .ok () s ∧ s.pw = 5 := by
  set hdr := cpeStreamHdr sid
  set s1 := (rtCpeSegReset p).start hdr 0 0 with hs1
  have hp1 : s1.pw = 3 := rfl
  have hl1 : s1.last = 1 := rfl
  have hw1 : s1.p 1 = cpeCtrlWord 0 := by
    show update (update (update p 0 hdr) 1 (cpeCtrlWord 0)) 2 0 1 = _
    rw [update_of_ne (by omega), update_self]
  have h1 : segWord cap hdr 0 0 (rtCpeSegReset p) = .ok () s1 :=
    segWord_start (le_trans (show u32 (0 + 5) ≤ 9 by decide) hcap) (not_continues_zero _)
  have hc1 : s1.continues 4 := by
    unfold Seg.continues
    rw [hl1, hw1]
    decide
  set s2 := s1.extend 0 with hs2
  have hp2 : s2.pw = 4 := rfl
  have hl2 : s2.last = 1 := rfl
  have hw2 : s2.p 1 = cpeCtrlWord (0 ||| (1 <<< 20)) := by
    have h0 : hdrAddr (s1.p s1.last) = 0 := by rw [hl1, hw1]; decide
    have hb : hdrBeats (s1.p s1.last) = 1 := by rw [hl1, hw1]; decide
    show update (update s1.p s1.last
      (cpeCtrlWord (hdrAddr (s1.p s1.last) ||| (hdrBeats (s1.p s1.last) <<< 20)))) 3 0 1 = _
    rw [h0, hb, update_of_ne (by omega), hl1, update_self]
  have h2 : segWord cap hdr 4 0 s1 = .ok () s2 :=
    segWord_extend (by rw [hp1]; exact le_trans (by decide) hcap) hc1
  have hc2 : s2.continues 8 := by
    unfold Seg.continues
    rw [hl2, hw2]
    decide
  have h3 : segWord cap hdr 8 0 s2 = .ok () (s2.extend 0) :=
    segWord_extend (by rw [hp2]; exact le_trans (by decide) hcap) hc2
  refine ⟨s2.extend 0, ?_, rfl⟩
  exact bind_ok.2 ⟨(), s1, h1, bind_ok.2 ⟨(), s2, h2, bind_ok.2 ⟨(), _, h3, rfl⟩⟩⟩

/-- One access of three words, then one-word writes to offset 0. -/
def overflowCalls (n : ℕ) : List SegCall := ⟨0, [0, 0, 0]⟩ :: List.replicate n ⟨0, [0]⟩

/-- Above the bound the encoder accepts writes until `pw` has come round to 1. -/
theorem segRun_overflow (p : ℕ → ℕ) (hcap : 2 ^ 32 - 3 ≤ cap) :
    ∃ s, segRun cap sid (overflowCalls 1431655764) (rtCpeSegReset p) = .ok () s ∧ s.pw = 1 := by
  obtain ⟨s1, h1, hp1⟩ := segRun_three cap sid p (by omega)
  have hroom : ∀ k < 1431655764, u32 (s1.pw + 3 * k + 5) ≤ cap := by
    intro k hk
    rw [hp1, u32]
    by_cases hlt : 5 + 3 * k + 5 < 2 ^ 32
    · rw [Nat.mod_eq_of_lt hlt]
      omega
    · rw [Nat.mod_eq_sub_mod (by omega), Nat.mod_eq_of_lt (by omega)]
      omega
  obtain ⟨s2, h2, hp2⟩ := segRun_zeros cap sid 1431655764 s1 (by omega) hroom
  refine ⟨s2, bind_ok.2 ⟨(), s1, h1, h2⟩, ?_⟩
  rw [hp2, hp1]
  rfl

theorem not_roundTrip_one {cap : ℕ} {calls : List SegCall} {s : Seg} (h : s.pw = 1) :
    ¬RoundTrip cap calls s := by
  intro hR
  obtain ⟨accs, hsp⟩ := hR.spells
  have hwords : s.words = [s.p 0] := by rw [Seg.words, h]; rfl
  have hwalk := hsp.walk
  rw [hwords] at hwalk
  cases hwalk

/-- **Segment round trip.** For a 32-bit capacity, every sequence of writes that all
succeed is read back exactly, before and after finishing, if and only if the capacity
is at most `2^32 - 4` words. -/
theorem segment_roundTrip_iff {cap : ℕ} (hcap : cap < 2 ^ 32) :
    (∀ (sid : ℕ) (p : ℕ → ℕ) (calls : List SegCall) (s : Seg),
      segRun cap sid calls (rtCpeSegReset p) = .ok () s → RoundTrip cap calls s) ↔ cap ≤ 2 ^ 32 - 4 := by
  constructor
  · intro h
    by_contra hlt
    obtain ⟨s, hs, hpw⟩ := segRun_overflow cap 0 (fun _ => 0) (by omega)
    exact not_roundTrip_one hpw (h _ _ _ _ hs)
  · intro hle sid p calls s h
    have hs := (holds_reset p).run hle calls h
    exact hs.roundTrip hle (putWords_plain (by simp [Plain]) _) (run_writes calls)

/-- The runtime's own segment buffers (`RT_SB_SEG_WORDS`) are far below the bound. -/
theorem segment_roundTrip_816 : 816 < 2 ^ 32 ∧
    ((∀ (sid : ℕ) (p : ℕ → ℕ) (calls : List SegCall) (s : Seg),
      segRun 816 sid calls (rtCpeSegReset p) = .ok () s → RoundTrip 816 calls s) ↔ 816 ≤ 2 ^ 32 - 4) :=
  ⟨by decide, segment_roundTrip_iff (by decide)⟩

/-- With the largest 32-bit capacity, 1431655767 word writes all succeed and leave a
segment of one word. -/
theorem segment_roundTrip_fails_at_max : ∃ s,
    segRun (2 ^ 32 - 1) 0 (overflowCalls 1431655764) (rtCpeSegReset fun _ => 0) = .ok () s ∧
      ¬RoundTrip (2 ^ 32 - 1) (overflowCalls 1431655764) s := by
  obtain ⟨s, hs, hpw⟩ := segRun_overflow (2 ^ 32 - 1) 0 (fun _ => 0) (by omega)
  exact ⟨s, hs, not_roundTrip_one hpw⟩

end AieHlc.Packet
