import XfceLinux.Ghcr.Sink
import XfceLinux.Dashboard.Ledger
import XfceLinux.Dashboard.RootCause
import XfceLinux.Lib.Matches
import XfceLinux.Dashboard.Cuts
import XfceLinux.Dashboard.Enrich
import XfceLinux.Dashboard.LogEndpoint
import XfceLinux.Dashboard.Rewrites
import XfceLinux.Fakecap.Store
import XfceLinux.Fakecap.Served
import XfceLinux.Fakecap.Listxattr
import XfceLinux.Fakecap.Errors
import XfceLinux.Fakecap.Routes
import XfceLinux.Luks.Verdict
import XfceLinux.Filemap.Listing
import XfceLinux.Dashboard.Progress
import XfceLinux.Dashboard.Replay
import XfceLinux.Dashboard.BuildControl
import XfceLinux.Dashboard.Markers
import XfceLinux.Dashboard.ShowOutput
import XfceLinux.Dashboard.Jobs
import XfceLinux.Dashboard.Reports
import XfceLinux.Dashboard.FailureLogs
import XfceLinux.Release.Promotion
import XfceLinux.Release.Rollback
import XfceLinux.Lib.Json
import XfceLinux.Lib.Purepath
import XfceLinux.Filemap.Colour
import XfceLinux.Luks.Raising
import XfceLinux.Live.Flatpaks
import XfceLinux.Live.Isofile
import XfceLinux.Ghcr.Reference
import XfceLinux.Install.Cleanup
import XfceLinux.Fakecap.Capture
import XfceLinux.Ghcr.Restore
import XfceLinux.Dashboard.Page
import XfceLinux.Fakecap.Tagged
import XfceLinux.Dashboard.Forgets
import XfceLinux.Dashboard.Books
import XfceLinux.Install.Recipe
import XfceLinux.Release.Provenance
