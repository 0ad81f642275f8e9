import PluginHost.Engine.Environment
import PluginHost.Proofs.Collection
import PluginHost.Proofs.Component.Activation
import PluginHost.Proofs.Component.TypeReferenceText
import PluginHost.Proofs.Engine.Registering
import PluginHost.Proofs.Engine.Reloading
import PluginHost.Proofs.Engine.Restart
import PluginHost.Proofs.Engine.Scanning
import PluginHost.Proofs.Host.Effects
import PluginHost.Proofs.Json.RoundTrip
import PluginHost.Proofs.Json.Tokens
import PluginHost.Proofs.Json.Values
import PluginHost.Proofs.Memo
import PluginHost.Proofs.Module.IdentityText
import PluginHost.Proofs.Module.Loading
import PluginHost.Proofs.Module.VersionText
import PluginHost.Proofs.Module.IdentityGrammar
import PluginHost.Proofs.Module.VersionOrder
import PluginHost.Proofs.Module.Identifying
import PluginHost.Proofs.Path
import PluginHost.Proofs.Registry.Holdings
import PluginHost.Proofs.Registry.Invariant
import PluginHost.Proofs.Registry.LookingUp
import PluginHost.Proofs.Registry.Precedence
import PluginHost.Proofs.Registry.Refusing
import PluginHost.Proofs.Registry.Reopening
import PluginHost.Proofs.Registry.Restoring
import PluginHost.Proofs.Registry.Run
import PluginHost.Proofs.Registry.Seeding
import PluginHost.Proofs.Registry.Stability
import PluginHost.Proofs.Registry.Step
import PluginHost.Proofs.Registry.Transparency
import PluginHost.Proofs.Registry.Updating
import PluginHost.Proofs.Resolution.Closure
import PluginHost.Proofs.Resolution.Ending
import PluginHost.Proofs.Resolution.Faithful
import PluginHost.Proofs.Resolution.Finding
import PluginHost.Proofs.Resolution.Fitting
import PluginHost.Proofs.Resolution.Keeping
import PluginHost.Proofs.Resolution.Probes
import PluginHost.Proofs.Resolution.Run
import PluginHost.Proofs.Resolution.Selecting
import PluginHost.Proofs.Resolution.Soundness
import PluginHost.Proofs.Scan.Isolation
import PluginHost.Proofs.Scan.Scanning
import PluginHost.Proofs.Settings.IndexText
import PluginHost.Proofs.Settings.Saving
import PluginHost.Proofs.Storage.Following
import PluginHost.Proofs.Storage.Removing
import PluginHost.Proofs.Storage.Walking
import PluginHost.Proofs.Storage.Writing
import PluginHost.Proofs.Text
import PluginHost.Proofs.TimestampText
import PluginHost.Proofs.UuidText
import PluginHost.Proofs.Resolution.Policies
import PluginHost.Proofs.Resolution.Visits
import PluginHost.Proofs.Resolution.ExactMatch
import PluginHost.Proofs.Storage.Spelling
import PluginHost.Proofs.Storage.Reaching
import PluginHost.Proofs.Storage.Enumerating
import PluginHost.Proofs.Storage.Differing
import PluginHost.Proofs.Module.LetterCase
import PluginHost.Proofs.Resolution.Recasing
import PluginHost.Proofs.Settings.Rearranging
import PluginHost.Proofs.Settings.Retrying
import PluginHost.Proofs.Storage.Renaming
import PluginHost.Proofs.Engine.Rescanning
import PluginHost.Proofs.Template.Finding
import PluginHost.Proofs.Storage.Replacing
import PluginHost.Proofs.RecordText
