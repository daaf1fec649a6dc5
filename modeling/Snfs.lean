import Snfs.Fs.Integrity
import Snfs.Fs.Atomic
import Snfs.Fs.Refinement
import Snfs.Fs.Names
import Snfs.Fs.Bounds
import Snfs.Fs.Bitmap
import Snfs.Fs.Paths
import Snfs.Fs.Copies
import Snfs.Fs.Formatting
import Snfs.Fs.Reload
import Snfs.Fs.Creating
import Snfs.Fs.Reading
import Snfs.Fs.Splicing
import Snfs.Fs.Writers
import Snfs.Fs.Sharing
import Snfs.Server.Progress
import Snfs.Server.Messages
import Snfs.Server.Listing
import Snfs.Fs.Lookups
import Snfs.Server.Strings
import Snfs.Server.Handles
import Snfs.Client.Descriptors
import Snfs.Client.Replies
import Snfs.Block.Geometry
import Snfs.Block.Images
import Snfs.Fs.BlockCache
import Snfs.Library.Links
import Snfs.Threads.Queue
import Snfs.Client.OpenFiles
import Snfs.Library.Filing
import Snfs.Threads.State
import Snfs.Threads.Invariant
import Snfs.Threads.Places
import Snfs.Threads.Monitors
import Snfs.Threads.Sleeping
import Snfs.Threads.Joining
import Snfs.Server.Operations
import Snfs.Fs.Growth
import Snfs.Fs.Sightings
import Snfs.Server.Files
import Snfs.Client.Accesses
import Snfs.Client.Listings
import Snfs.Client.Making
import Snfs.Client.Network
import Snfs.Threads.Turns
import Snfs.Client.Consistency
