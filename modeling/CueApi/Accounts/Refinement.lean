import CueApi.Accounts.Keeping

/-! Every run of accounts is a legal history, whatever the interleaving, the crashes and the failures
of Redis, and the committed tables are the replay of its commits. -/

namespace CueApi.Accounts

open Scheduler (Time UserId Pid Table)
open ReadCommitted Interleaving Trace Recorded

variable {env : Env} {t₀ : Tables} {p : Pid} {w : World} {h h' : History}

theorem runs_programOf {call : Call} (hw : Here p call [] w) :
    RunsOn env t₀ p (Replies env t₀ p) (programOf env p call) w := by
  cases call with
  | authenticated headers => exact runs_authenticated hw
  | register email => exact runs_register hw
  | regenerateKey headers => exact runs_regenerateKey hw
  | patchMe headers email alertWebhookUrl => exact runs_patchMe hw
  | refreshSession headers => exact runs_refreshSession hw
  | revealKey headers => exact runs_revealKey hw
  | upsertUser headers userId body => exact runs_upsertUser hw
  | createDeviceCode deviceCode => exact runs_createDeviceCode hw
  | pollDeviceCode deviceCode => exact runs_pollDeviceCode hw
  | submitEmail deviceCode email => exact runs_submitEmail hw
  | verify token deviceCode => exact runs_verify hw
  | createSession token => exact runs_createSession hw
  | cleanupDeviceCodes => exact runs_cleanupDeviceCodes hw

/-- Every program keeps to the transactions of `Commits`. -/
theorem keeps (env : Env) (t₀ : Tables) : Keeps schema t₀ (Allowed env t₀) (programOf env) where
  began h p call hown := hown
  left h p call how hc hhow := by
    cases how with
    | returned reply => exact absurd rfl (hhow reply)
    | crashed => exact ⟨call, hc⟩
    | raised => exact ⟨call, hc⟩
  stable h h' p reply hs ho := by
    rintro ⟨call, hc, hr⟩
    refine ⟨call, ?_, hr.suffix hs⟩
    rw [← callOf_own, ho, callOf_own]
    exact hc
  runs p call w hw _ := runs_programOf ⟨hw.buf, by rw [hw.callOf_eq]; exact if_pos rfl⟩

/-! ## Runs -/

/-- The states that any number of requests reach from these users. -/
def Reachable (env : Env) (users : Table UserId User) (s : Sys) : Prop :=
  ∃ now as, run env (start users now) as = some s

variable {users : Table UserId User} {s : Sys}

theorem Reachable.sound (hr : Reachable env users s) :
    Sound { users := users } (Allowed env { users := users }) s := by
  obtain ⟨now, as, hrun⟩ := hr
  exact ((sound_init _ _ _ now).run (keeps env _) hrun).1

/-- Refinement: the reachable states are described by legal histories. -/
theorem Reachable.legal (hr : Reachable env users s) :
    Legal env { users := users } s.shared.history := hr.sound.good.1.legal

theorem Reachable.tables_eq (hr : Reachable env users s) :
    s.shared.tables = replayed { users := users } s.shared.history := hr.sound.good.1.tables

end CueApi.Accounts
