import NullFxp.Connection.Interleaved

/-!
# What is asked of the server
-/

open Calls

namespace NullFxp.SSHConnection

open Connection

/-- The calls alone: nothing has to hold where one is made. -/
def asked : Own Ans Held := ⟨fun _ _ => True, Held.call⟩

theorem wp_asked {α : Type} {o : Call} {f : Ans o → Program α} {Q : α → Held → Prop} {t : Held}
    (h : ∀ a, wp asked (f a) Q (t.call o a)) : wp asked (call o >>= f) Q t :=
  wp_bind.mpr ⟨trivial, h⟩

theorem requests_cleanUp (t : Held) : wp asked cleanUp (fun _ t' => t'.requests = t.requests) t := by
  unfold cleanUp
  apply wp_asked
  intro _
  apply wp_asked
  intro _
  apply wp_asked
  intro _
  rfl

theorem requests_authDone (t : Held) : wp asked authDone (fun _ t' => t'.requests = t.requests) t := by
  unfold authDone
  apply wp_asked
  intro ret
  rw [wp_ite]
  split
  · apply wp_asked
    intro _
    rfl
  · apply wp_asked
    intro canceled
    rw [wp_ite]
    split
    · exact requests_cleanUp _
    · rfl

theorem requests_authTried (t : Held) :
    wp asked (call (.userCanceled .sshAuthTried) >>= fun canceled : Bool =>
      if canceled = true then cleanUp else authDone) (fun _ t' => t'.requests = t.requests) t := by
  apply wp_asked
  intro canceled
  rw [wp_ite]
  split
  · exact requests_cleanUp _
  · exact requests_authDone _

/-- The requests of `authPassword`, for the answers that it has got. -/
def AsksPassword (conn : Info) (before : List (AuthCall × Int)) (t : Held) : Prop :=
  ∃ canceled ret l, t.requests = before ++ l ∧ (∀ r ∈ l.dropLast, r.2 < 0) ∧
    ∀ env : AuthEnv, env.canceledPassword = canceled → env.password = ret →
      l.map Prod.fst = passwordAuth env conn

theorem requests_authPassword (conn : Info) (t : Held) :
    wp asked (authPassword conn) (fun _ t' => AsksPassword conn t.requests t') t := by
  unfold authPassword
  apply wp_asked
  intro canceled
  rw [wp_ite]
  split
  · refine wp_mono (requests_cleanUp _) ?_
    intro _ t' h
    refine ⟨true, 0, [], by simpa [Held.call] using h, by simp, ?_⟩
    intro env henv _
    simp [passwordAuth, henv]
  · apply wp_asked
    intro ret
    rw [wp_ite]
    split
    · rename_i hret
      apply wp_asked
      intro ret'
      refine wp_mono (requests_authTried _) ?_
      intro _ t' h
      refine ⟨false, ret, [(_, ret), (_, ret')], by simpa [Held.call] using h, by simpa using hret, ?_⟩
      intro env henv hpassword
      simp [passwordAuth, henv, hpassword, hret]
    · rename_i hret
      refine wp_mono (requests_authTried _) ?_
      intro _ t' h
      refine ⟨false, ret, [(_, ret)], by simpa [Held.call] using h, by simp, ?_⟩
      intro env henv hpassword
      simp [passwordAuth, henv, hpassword, hret]

theorem mem_dropLast_append {α : Type} {x : α} {l m : List α} (h : x ∈ (l ++ m).dropLast) :
    x ∈ l ∨ x ∈ m.dropLast := by
  cases m with
  | nil =>
    rw [List.append_nil] at h
    exact .inl (List.dropLast_subset l h)
  | cons y m =>
    rw [List.dropLast_append_of_ne_nil (by simp), List.mem_append] at h
    exact h

/-- What `sshAuth` leaves in `requests`. -/
def Asks (conn : Info) (t : Held) : Prop :=
  (∃ env, t.requests.map Prod.fst = Connection.sshAuth env conn) ∧
    ∀ r ∈ t.requests.dropLast, r.2 < 0

theorem asks_of_password {conn : Info} (env : AuthEnv) {before : List (AuthCall × Int)} {t : Held}
    (hrefused : ∀ r ∈ before, r.2 < 0) (h : AsksPassword conn before t)
    (henv : ∀ canceled ret, Connection.sshAuth { env with
        canceledPassword := canceled, password := ret } conn = before.map Prod.fst ++
      passwordAuth { env with canceledPassword := canceled, password := ret } conn) :
    Asks conn t := by
  obtain ⟨canceled, ret, l, hl, hdrop, hpassword⟩ := h
  unfold Asks
  rw [hl]
  refine ⟨⟨{ env with canceledPassword := canceled, password := ret }, ?_⟩, ?_⟩
  · rw [henv canceled ret, List.map_append,
      hpassword { env with canceledPassword := canceled, password := ret } rfl rfl]
  · intro r hr
    exact (mem_dropLast_append hr).elim (hrefused r) (hdrop r)

theorem requests_sshAuth (conn : Info) {t : Held} (ht : t.requests = []) :
    wp asked (sshAuth conn) (fun _ t' => Asks conn t') t := by
  unfold SSHConnection.sshAuth
  apply wp_asked
  intro _
  apply wp_asked
  intro ret
  rw [wp_ite]
  split
  · rename_i hret
    refine wp_mono (requests_authDone _) ?_
    intro _ t' h
    simp only [Held.call, ht, List.nil_append] at h
    unfold Asks
    rw [h]
    refine ⟨⟨⟨ret, 0, 0, 0, false, false⟩, ?_⟩, by simp⟩
    simp [Connection.sshAuth, hret]
  rename_i hhost
  rw [wp_ite]
  split
  · rename_i hpubkey
    refine wp_mono (requests_authPassword conn _) ?_
    intro _ t' h
    simp only [Held.call, ht, List.nil_append] at h
    refine asks_of_password ⟨ret, 0, 0, 0, false, false⟩ (by simpa using hhost) h ?_
    intro canceled ret'
    simp [Connection.sshAuth, hhost, hpubkey]
  rename_i hpubkey
  apply wp_asked
  intro canceled
  rw [wp_ite]
  split
  · refine wp_mono (requests_cleanUp _) ?_
    intro _ t' h
    simp only [Held.call, ht, List.nil_append] at h
    unfold Asks
    rw [h]
    refine ⟨⟨⟨ret, 0, 0, 0, true, false⟩, ?_⟩, by simp⟩
    simp [Connection.sshAuth, hhost, hpubkey]
  apply wp_asked
  intro isPrivKey
  apply wp_asked
  intro ret'
  rw [wp_ite]
  split
  · rename_i hkey
    refine wp_mono (requests_authPassword conn _) ?_
    intro _ t' h
    simp only [Held.call, ht, List.nil_append, List.cons_append] at h
    refine asks_of_password ⟨ret, isPrivKey, ret', 0, false, false⟩
      (by simpa using ⟨Int.not_le.mp hhost, hkey⟩) h ?_
    intro canceled ret
    simp [Connection.sshAuth, hhost, hpubkey, hkey]
  · rename_i hkey
    refine wp_mono (requests_authDone _) ?_
    intro _ t' h
    simp only [Held.call, ht, List.nil_append, List.cons_append] at h
    unfold Asks
    rw [h]
    refine ⟨⟨⟨ret, isPrivKey, ret', 0, false, false⟩, ?_⟩, by simpa using hhost⟩
    simp [Connection.sshAuth, hhost, hpubkey, hkey]

end NullFxp.SSHConnection
